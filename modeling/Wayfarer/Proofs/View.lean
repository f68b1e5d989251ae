import Wayfarer.Proofs.Minting
import Wayfarer.Proofs.Reading
import Wayfarer.Proofs.Wiring

/-!
# Views

What a request sees of all objects, apart from marks of change, is a `View`. The
steps that work is made of change it in simple ways: `View.put`, `View.erase`
and `View.modify`. `Desk.Reached` says of a desk that certain steps led there
from another one and that its view is now this one; there is one rule for each
step.

A version of zero is to mean that an object was never committed. `Desk.Sane`
asks this of a desk: if an object of version zero were stored all the same, its
removal from the draft would uncover the stored one.
-/

namespace Wayfarer

/-- What somebody sees of every object. -/
abbrev View := ObjectId → Option Anchor

namespace View

/-- The view with an object put in. -/
def put (v : View) (id : ObjectId) (a : Anchor) : View := fun j => if j = id then some a else v j

/-- The view without an object. -/
def erase (v : View) (id : ObjectId) : View := fun j => if j = id then none else v j

/-- The view with an object changed. -/
def modify (v : View) (id : ObjectId) (change : Anchor → Anchor) : View := fun j =>
  if j = id then (v j).map change else v j

/-- What shows in the place of an object when it is removed: what is stored
below, unless a tombstone hides it. -/
def beneath (v below : View) : View := fun id =>
  (v id).bind fun a => if a.version = 0 then below id else none

/-- The view after an object was removed. -/
def reveal (v below : View) (id : ObjectId) : View := fun j =>
  if j = id then v.beneath below j else v j

theorem modify_of_none {v : View} {id : ObjectId} {change : Anchor → Anchor} (h : v id = none) :
    v.modify id change = v := by
  funext j
  unfold modify
  split
  · rename_i hj
    rw [hj, h]
    rfl
  · rfl

theorem modify_of_some {v : View} {id : ObjectId} {change : Anchor → Anchor} {a : Anchor}
    (h : v id = some a) : v.modify id change = v.put id (change a) := by
  funext j
  unfold modify put
  split
  · rename_i hj
    rw [hj, h]
    rfl
  · rfl

theorem reveal_of_none {v below : View} {id : ObjectId} (h : v id = none) :
    v.reveal below id = v := by
  funext j
  unfold reveal beneath
  split
  · rename_i hj
    rw [hj, h]
    rfl
  · rfl

/-- If nothing is stored in the place of a new object, its removal reveals
nothing. -/
theorem reveal_eq_erase {v below : View} {id : ObjectId}
    (h : ∀ a, v id = some a → a.version = 0 → below id = none) :
    v.reveal below id = v.erase id := by
  funext j
  unfold reveal beneath erase
  split
  · rename_i hj
    subst hj
    cases ha : v j with
    | none => rfl
    | some a =>
      by_cases hz : a.version = 0
      · simp [h a ha hz]
      · simp [hz]
  · rfl

end View

/-! ## Changes of objects -/

namespace Anchor

/-- A change that is no matter of identity, version or marks. -/
structure Mild (change : Anchor → Anchor) : Prop where
  id : ∀ a, (change a).id = a.id
  version : ∀ a, (change a).version = a.version
  clean : ∀ a, (change a).clean = change a.clean

theorem Mild.mapNode (f : NodeRecord → NodeRecord) : Mild (·.mapNode f) := by
  refine ⟨fun a => mapNode_id a f, fun a => mapNode_version a f, fun a => ?_⟩
  cases hb : a.body <;> simp [Anchor.mapNode, Anchor.clean, hb]

end Anchor

namespace Desk

variable {σ : Type} [Durable σ] {t : Tier σ} {d₀ d d' : Desk σ} {n : Nat} {v : View}
  {id : ObjectId} {a b : Anchor}

/-- What a request sees over a tier. -/
def view (t : Tier σ) (d : Desk σ) : View := fun id => (d.draft.view t.content id).map Anchor.clean

/-- A request that has an object, has removed it, or could load it. -/
def Knows (t : Tier σ) (d : Desk σ) (id : ObjectId) : Prop :=
  d.draft.Mentions id ∨ ∃ a, t.content.get? id = some a

/-- A desk over a tier, with a keyed draft and with nothing of version zero that
is stored. -/
structure Sane (t : Tier σ) (d : Desk σ) : Prop where
  above : d.Over t
  keyed : d.draft.Keyed
  novel : ∀ {id a}, d.view t id = some a → a.version = 0 → t.content.get? id = none

/-- Steps of work from one desk to another, with so many uses of the mint. What
is staged is new. -/
inductive Steps (t : Tier σ) (d : Desk σ) : Nat → Desk σ → Prop
  | refl : Steps t d 0 d
  | fetched {n d₁ d₂} (h : Steps t d n d₁) (hf : Fetched t d₁ d₂) : Steps t d n d₂
  | edited {n d₁ id a b} (h : Steps t d n d₁) (ha : d₁.draft.copy? id = some a)
      (hid : b.id = a.id) (hv : b.version = a.version) (hd : b.dirty = true) :
      Steps t d n (d₁.keep id b)
  | buried {n d₁ id a} (h : Steps t d n d₁) (ha : d₁.draft.copy? id = some a) :
      Steps t d n (d₁.bury id a)
  | minted {n d₁} (h : Steps t d n d₁) : Steps t d (n + 1) d₁.minted
  | staged {n d₁ a} (h : Steps t d n d₁) (hz : a.version = 0)
      (hname : ∃ i < n, d.shared.mint.Names i a.id) (hnew : ¬ d₁.Knows t a.id) :
      Steps t d n (d₁.staged a)

/-- A desk that steps from `d₀` lead to and at which the view is `v`. -/
structure Reached (t : Tier σ) (d₀ : Desk σ) (n : Nat) (v : View) (d : Desk σ) : Prop where
  steps : Steps t d₀ n d
  sane : d.Sane t
  view_eq : d.view t = v

/-! ## What the steps do to a view -/

theorem view_of_copy? (hr : d.draft.removed? id = none) (ha : d.draft.copy? id = some a) :
    d.view t id = some a.clean := by
  simp only [view, Draft.view_of_volatile hr ha, Option.map_some]

/-- What nobody knows is not seen. -/
theorem unseen_of_not_knows {id : ObjectId} (h : ¬ d.Knows t id) : d.view t id = none := by
  unfold Desk.view
  cases hv : d.draft.view t.content id with
  | none => rfl
  | some a =>
    obtain ⟨_, hcopy | ⟨_, hcontent⟩⟩ := Draft.view_eq_some hv
    · exact absurd (.inl (.inl ⟨a, hcopy⟩)) h
    · exact absurd (.inr ⟨a, hcontent⟩) h

theorem Fetched.same_view (h : Fetched t d d') : d'.view t = d.view t := by
  funext id
  simp only [view, h.view_eq]

/-- Reading does not change what is seen, and it leaves a copy of what it
answers. -/
theorem Fetched.load (h : Fetched t d₀ d) (id : ObjectId) :
    Work.Ends (load id) d (fun found d' => found.map Anchor.clean = d₀.view t id ∧
      (∀ a, found = some a → d'.draft.copy? id = some a) ∧ Fetched t d₀ d') fun _ _ => False := by
  refine (load_ends h.above id).imp ?_
  rintro _ d' ⟨rfl, hr⟩
  refine ⟨?_, fun a ha => hr.copied ha, h.trans hr.fetched⟩
  rw [← h.same_view]
  rfl

theorem Fetched.loadNode (h : Fetched t d₀ d) (m : NodeId) :
    Work.Ends (loadNode m) d (fun found d' => found = (d₀.view t (.node m)).bind Anchor.node? ∧
      Fetched t d₀ d') fun _ _ => False := by
  refine (h.load _).andThen ?_
  rintro found d' ⟨hv, _, hr⟩
  refine .pure ⟨?_, hr⟩
  rw [← hv]
  cases found <;> rfl

theorem Fetched.loadEdge (h : Fetched t d₀ d) (e : EdgeId) :
    Work.Ends (loadEdge e) d (fun found d' => found = (d₀.view t (.edge e)).bind Anchor.edge? ∧
      Fetched t d₀ d') fun _ _ => False := by
  refine (h.load _).andThen ?_
  rintro found d' ⟨hv, _, hr⟩
  refine .pure ⟨?_, hr⟩
  rw [← hv]
  cases found <;> rfl

/-- A check answers with the object as it is seen. It fails if the object is
missing or does not permit so much. -/
theorem Fetched.check (h : Fetched t d₀ d) (actor : Actor) (id : ObjectId) (level : Level) :
    Work.Ends (actor.check id level) d
      (fun a d' => d₀.view t id = some a.clean ∧ a.permits actor.requester level = true ∧
        Fetched t d₀ d')
      fun _ d' => (∀ a, d₀.view t id = some a → ¬ a.permits actor.requester level = true) ∧
        Fetched t d₀ d' := by
  refine (h.load id).surely.andThen ?_
  rintro found d₁ ⟨hv, -, h₁⟩
  cases found with
  | none => exact .throw ⟨fun a ha => (Option.some_ne_none a (hv.trans ha).symm).elim, h₁⟩
  | some b =>
    dsimp only
    split
    · exact .pure ⟨hv.symm, ‹_›, h₁⟩
    · rename_i hp
      refine .throw ⟨fun a ha => ?_, h₁⟩
      cases Option.some.inj (hv.trans ha)
      exact hp

theorem view_keep (hr : d.draft.removed? id = none) :
    (d.keep id b).view t = (d.view t).put id b.clean := by
  funext j
  unfold View.put
  split
  · rename_i hj
    subst hj
    exact view_of_copy? hr ((keep_copy? ..).trans (if_pos rfl))
  · rename_i hj
    exact congrArg _ (Draft.view_congr ((keep_copy? ..).trans (if_neg hj)) rfl)

/-- The removal of an object leaves a tombstone, or else reveals what is
stored. -/
theorem view_bury (hr : d.draft.removed? id = none) (ha : d.draft.copy? id = some a) :
    (d.bury id a).view t = (d.view t).reveal t.content.get? id := by
  have hcopy := bury_copy? d id id a
  have hrem := bury_removed? d id id a
  funext j
  unfold View.reveal
  split
  · rename_i hj
    subst hj
    have hbeneath : (d.view t).beneath t.content.get? j =
        if a.version = 0 then t.content.get? j else none := by
      simp only [View.beneath, view_of_copy? hr ha]
      rfl
    rw [hbeneath]
    by_cases hz : a.version = 0
    · rw [if_pos hz]
      rw [if_neg (by simp [hz]), hr] at hrem
      have hstored : (d.bury j a).draft.view t.content j = t.content.get? j :=
        Draft.view_of_content hrem (hcopy.trans (if_pos rfl))
      simp only [view, hstored]
      cases hc : t.content.get? j with
      | none => rfl
      | some b => exact congrArg some (Shared.clean_of_not_dirty (t.tidy hc).2)
    · rw [if_neg hz]
      rw [if_pos ⟨rfl, hz⟩] at hrem
      simp only [view, Draft.view_of_tombstone hrem, Option.map_none]
  · rename_i hj
    exact congrArg _ (Draft.view_congr ((bury_copy? ..).trans (if_neg hj))
      ((bury_removed? ..).trans (if_neg fun hh => hj hh.1)))

theorem view_staged : (d.staged a).view t = (d.view t).put a.id a.clean := by
  funext j
  have hcopy := Draft.stage_copy? d.draft a j
  have hrem := Draft.stage_removed? d.draft a j
  unfold View.put
  split
  · rename_i hj
    exact view_of_copy? (a := { a with dirty := true }) (hrem.trans (if_pos hj))
      (hcopy.trans (if_pos hj))
  · rename_i hj
    exact congrArg _ (Draft.view_congr (hcopy.trans (if_neg hj)) (hrem.trans (if_neg hj)))

/-- What is seen once an object was read and changed. -/
theorem Recalled.view_update (h : Recalled t id d d') (hk : d'.draft.Keyed)
    {change : Anchor → Anchor} (hm : Anchor.Mild change) :
    ((d.draft.view t.content id).elim d' fun a =>
        d'.keep id { change a with dirty := true }).view t =
      (d.view t).modify id change := by
  have hsame := h.fetched.same_view
  cases ha : d.draft.view t.content id with
  | none =>
    have hnone : d.view t id = none := by rw [view, ha, Option.map_none]
    rw [Option.elim, hsame, View.modify_of_none hnone]
  | some a =>
    have hsome : d.view t id = some a.clean := by rw [view, ha, Option.map_some]
    rw [Option.elim, view_keep (hk.removed?_of_copy? (h.copied ha)), hsame,
      View.modify_of_some hsome, ← hm.clean]
    rfl

/-- What is seen once an object was read and removed. -/
theorem Recalled.view_delete (h : Recalled t id d d') (hk : d'.draft.Keyed) :
    ((d.draft.view t.content id).elim d' (d'.bury id)).view t =
      (d.view t).reveal t.content.get? id := by
  have hsame := h.fetched.same_view
  cases ha : d.draft.view t.content id with
  | none =>
    have hnone : d.view t id = none := by rw [view, ha, Option.map_none]
    rw [Option.elim, hsame, View.reveal_of_none hnone]
  | some a =>
    have hcopy := h.copied ha
    rw [Option.elim, view_bury (hk.removed?_of_copy? hcopy) hcopy, hsame]

/-! ## Sane desks -/

namespace Sane

theorem novel_copy (h : d.Sane t) (ha : d.draft.copy? id = some a) (hz : a.version = 0) :
    t.content.get? id = none :=
  h.novel (view_of_copy? (h.keyed.removed?_of_copy? ha) ha) hz

/-- Removals reveal nothing. -/
theorem view_reveal (h : d.Sane t) (id : ObjectId) :
    (d.view t).reveal t.content.get? id = (d.view t).erase id :=
  View.reveal_eq_erase fun _ ha hz => h.novel ha hz

theorem fetched (h : d.Sane t) (hf : Fetched t d d') : d'.Sane t :=
  ⟨hf.above, h.keyed.filled t.tidy hf.toFilled, hf.same_view ▸ h.novel⟩

theorem edited (h : d.Sane t) (ha : d.draft.copy? id = some a) (hid : b.id = a.id)
    (hv : b.version = a.version) : (d.keep id b).Sane t := by
  have hr := h.keyed.removed?_of_copy? ha
  refine ⟨⟨h.above.holds, h.above.coherent⟩, h.keyed.keep (hid.trans (h.keyed.own ha)) hr, ?_⟩
  rw [view_keep hr]
  intro j x hx hz
  unfold View.put at hx
  split at hx
  · rename_i hj
    cases hx
    rw [hj]
    exact h.novel_copy ha (hv.symm.trans hz)
  · exact h.novel hx hz

theorem buried (h : d.Sane t) (ha : d.draft.copy? id = some a) : (d.bury id a).Sane t := by
  have hr := h.keyed.removed?_of_copy? ha
  refine ⟨⟨h.above.holds, h.above.coherent⟩, h.keyed.bury id a, ?_⟩
  rw [view_bury hr ha, h.view_reveal]
  intro j x hx hz
  unfold View.erase at hx
  split at hx
  · cases hx
  · exact h.novel hx hz

theorem minted (h : d.Sane t) : d.minted.Sane t :=
  ⟨⟨h.above.holds, h.above.coherent.congr rfl rfl⟩, h.keyed, h.novel⟩

theorem staged (h : d.Sane t) (hnew : ¬ d.Knows t a.id) : (d.staged a).Sane t := by
  refine ⟨⟨h.above.holds, h.above.coherent⟩, h.keyed.stage a, ?_⟩
  rw [view_staged]
  intro j x hx hz
  unfold View.put at hx
  split at hx
  · rename_i hj
    rw [hj]
    cases hc : t.content.get? a.id with
    | none => rfl
    | some y => exact absurd (.inr ⟨y, hc⟩) hnew
  · exact h.novel hx hz

end Sane

namespace Steps

theorem sane (h : Steps t d n d') (hs : d.Sane t) : d'.Sane t := by
  induction h with
  | refl => exact hs
  | fetched _ hf ih => exact ih.fetched hf
  | edited _ ha hid hv _ ih => exact ih.edited ha hid hv
  | buried _ ha ih => exact ih.buried ha
  | minted _ ih => exact ih.minted
  | staged _ _ _ hnew ih => exact ih.staged hnew

theorem mint (h : Steps t d n d') : d'.shared.mint = d.shared.mint.after n := by
  induction h with
  | refl => rfl
  | fetched _ hf ih => rw [hf.mint, ih]
  | edited _ _ _ _ _ ih => exact ih
  | buried _ _ ih => exact ih
  | minted _ ih =>
    rw [Mint.after_succ, ← ih]
    rfl
  | staged _ _ _ _ ih => exact ih

/-- Whatever is known in the end was known at first or was named by the mint in
between. -/
theorem knows (h : Steps t d n d') (hk : d'.Knows t id) :
    d.Knows t id ∨ ∃ i < n, d.shared.mint.Names i id := by
  -- what a step makes known was known before, or the mint has named it
  induction h with
  | refl => exact .inl hk
  | fetched _ hf ih =>
    refine ih ?_
    rcases hk with (⟨x, hx⟩ | ⟨w, hw⟩) | hc
    · rcases hf.volatile id with hv | ⟨_, _, y, hy, _⟩
      · exact .inl (.inl ⟨x, hv.symm.trans hx⟩)
      · exact .inr ⟨y, hy⟩
    · exact .inl (.inr ⟨w, by rw [← hw, Draft.removed?, Draft.removed?, hf.tombstones]⟩)
    · exact .inr hc
  | @edited _ d₁ j x y _ ha _ _ _ ih =>
    refine ih ?_
    rcases hk with (⟨z, hz⟩ | hr) | hc
    · rw [keep_copy?] at hz
      split at hz
      · rename_i hj
        exact .inl (.inl ⟨x, hj ▸ ha⟩)
      · exact .inl (.inl ⟨z, hz⟩)
    · exact .inl (.inr hr)
    · exact .inr hc
  | @buried _ d₁ j x _ ha ih =>
    refine ih ?_
    rcases hk with (⟨z, hz⟩ | ⟨w, hw⟩) | hc
    · rw [bury_copy?] at hz
      split at hz
      · cases hz
      · exact .inl (.inl ⟨z, hz⟩)
    · rw [bury_removed?] at hw
      split at hw
      · rename_i hj
        exact .inl (.inl ⟨x, hj.1 ▸ ha⟩)
      · exact .inl (.inr ⟨w, hw⟩)
    · exact .inr hc
  | minted _ ih =>
    rcases ih hk with hk | ⟨i, hi, hn⟩
    · exact .inl hk
    · exact .inr ⟨i, Nat.lt_succ_of_lt hi, hn⟩
  | staged _ _ hname _ ih =>
    rcases hk with hm | hc
    · rcases Draft.mentions_of_stage hm with rfl | hm
      · exact .inr hname
      · exact ih (.inl hm)
    · exact ih (.inr hc)

/-- What the mint names next is not known yet, if it has a supply of new
names. -/
theorem not_knows {N i : Nat} (h : Steps t d n d') (hs : d.shared.mint.Ample N (d.Knows t))
    (hi : n + i < N) (hid : d'.shared.mint.Names i id) : ¬ d'.Knows t id := by
  rw [h.mint, Mint.after_names] at hid
  intro hk
  rcases h.knows hk with hk | ⟨j, hj, hname⟩
  · exact hs.fresh hi hid hk
  · exact hs.distinct (Nat.lt_of_lt_of_le hj (Nat.le_add_right n i)) hi hname hid

end Steps

/-! ## The rules -/

namespace Reached

theorem refl (hs : d.Sane t) : Reached t d 0 (d.view t) d := ⟨.refl, hs, rfl⟩

theorem fetched (h : Reached t d₀ n v d) (hf : Fetched t d d') : Reached t d₀ n v d' :=
  ⟨h.steps.fetched hf, h.sane.fetched hf, hf.same_view.trans h.view_eq⟩

/-- Work that only reads leaves the view as it is. -/
theorem reads {α : Type} {w : Work σ α} (h : Reached t d₀ n v d) (hw : Reads w) :
    Work.Ends w d (fun _ => Reached t d₀ n v) fun _ => Reached t d₀ n v :=
  (hw.fetched h.sane.above).mono (fun _ _ hf => h.fetched hf) fun _ _ hf => h.fetched hf

theorem loadNode (h : Reached t d₀ n v d) (m : NodeId) :
    Work.Ends (loadNode m) d (fun found d' => found = (v (.node m)).bind Anchor.node? ∧
      Reached t d₀ n v d') fun _ _ => False := by
  rw [← h.view_eq]
  refine ((Fetched.refl h.sane.above).loadNode m).imp ?_
  exact fun _ _ hl => ⟨hl.1, h.view_eq ▸ h.fetched hl.2⟩

theorem loadEdge (h : Reached t d₀ n v d) (e : EdgeId) :
    Work.Ends (loadEdge e) d (fun found d' => found = (v (.edge e)).bind Anchor.edge? ∧
      Reached t d₀ n v d') fun _ _ => False := by
  rw [← h.view_eq]
  refine ((Fetched.refl h.sane.above).loadEdge e).imp ?_
  exact fun _ _ hl => ⟨hl.1, h.view_eq ▸ h.fetched hl.2⟩

theorem update? (h : Reached t d₀ n v d) (id : ObjectId) {change : Anchor → Anchor}
    (hm : Anchor.Mild change) :
    Work.Ends (update? id change) d (fun before d' => before.map Anchor.clean = v id ∧
      Reached t d₀ n (v.modify id change) d') fun _ _ => False := by
  refine (update?_ends h.sane.above id change).imp ?_
  rintro _ _ ⟨rfl, d₁, hr, rfl⟩
  have h₁ := h.fetched hr.fetched
  have hview := hr.view_update h₁.sane.keyed hm
  rw [h.view_eq] at hview
  refine ⟨congrFun h.view_eq id, ?_⟩
  cases ha : d.draft.view t.content id with
  | none =>
    rw [ha] at hview
    exact ⟨h₁.steps, h₁.sane, hview⟩
  | some a =>
    rw [ha] at hview
    have hcopy := hr.copied ha
    exact ⟨h₁.steps.edited hcopy (hm.id a) (hm.version a) rfl,
      h₁.sane.edited hcopy (hm.id a) (hm.version a), hview⟩

theorem delete (h : Reached t d₀ n v d) (id : ObjectId) :
    Work.Ends (delete id) d (fun _ d' => Reached t d₀ n (v.erase id) d') fun _ _ => False := by
  refine (delete_ends h.sane.above id).imp ?_
  rintro _ _ ⟨d₁, hr, rfl⟩
  have h₁ := h.fetched hr.fetched
  have hview := hr.view_delete h₁.sane.keyed
  rw [h.sane.view_reveal, h.view_eq] at hview
  cases ha : d.draft.view t.content id with
  | none =>
    rw [ha] at hview
    exact ⟨h₁.steps, h₁.sane, hview⟩
  | some a =>
    rw [ha] at hview
    have hcopy := hr.copied ha
    exact ⟨h₁.steps.buried hcopy, h₁.sane.buried hcopy, hview⟩

theorem minted (h : Reached t d₀ n v d) : Reached t d₀ (n + 1) v d.minted :=
  ⟨h.steps.minted, h.sane.minted, h.view_eq⟩

theorem staged (h : Reached t d₀ n v d) (hz : a.version = 0)
    (hname : ∃ i < n, d₀.shared.mint.Names i a.id) (hnew : ¬ d.Knows t a.id) :
    Reached t d₀ n (v.put a.id a.clean) (d.staged a) :=
  ⟨h.steps.staged hz hname hnew, h.sane.staged hnew, view_staged.trans (by rw [h.view_eq])⟩

end Reached

end Desk

end Wayfarer
