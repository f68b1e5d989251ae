import Wayfarer.Proofs.Minting
import Wayfarer.Proofs.Reading
import Wayfarer.Proofs.Wiring.Steps

/-!
# Sound requests

`Sound` gathers all that holds of a request at its desk: the cache agrees with
the vault, the draft is dated and wired, and the mint can name some more new
objects. Between operations nothing is due and nobody is dead: `Calm`. Each
thing that work does to a desk keeps it sound.

* Reading keeps every desk sound (`Sound.loaded`, `Sound.reads`).
* `Sound.edited`, `Sound.staged` and `Sound.buried` change, add and remove one
  object.
* `Desk.Tame` changes touch fields and access alone; they are what editing an
  object comes to.
-/

namespace Wayfarer

/-- A request in good order, which may still mint `n` identities. -/
structure Sound (c : Setting) (n : Nat) (due : EdgeId → Prop) (dead : NodeId → Prop)
    (d : Desk Vault) : Prop where
  chronicle : Chronicle c.past c.stored
  lineage : Lineage c
  agreed : d.shared.Agreed
  stored : d.stored = c.stored
  dated : Dated c d.draft
  wired : Wired c due dead d.draft
  supply : d.shared.mint.Ample n fun id => c.Committed id ∨ c.reserved id ∨ d.draft.Mentions id

/-- A request between operations. -/
abbrev Calm (c : Setting) (n : Nat) (d : Desk Vault) : Prop :=
  Sound c n (fun _ => False) (fun _ => False) d

/-- An identity that nobody has used and the mint will not name in its next `n`
uses. -/
structure Fresh (c : Setting) (n : Nat) (d : Desk Vault) (id : ObjectId) : Prop where
  uncommitted : ¬ c.Committed id
  unreserved : ¬ c.reserved id
  unmentioned : ¬ d.draft.Mentions id
  unnamed : ∀ {i}, i < n → ¬ d.shared.mint.Names i id

variable {c : Setting} {n k : Nat} {due due' : EdgeId → Prop} {dead dead' : NodeId → Prop}
  {d d' : Desk Vault} {id : ObjectId} {a b : Anchor}

namespace Desk

theorem look_eq_some (h : d.look id = some a) : d.draft.removed? id = none ∧
    (d.draft.copy? id = some a ∨ (d.draft.copy? id = none ∧ d.stored.get? id = some a)) :=
  Draft.view_eq_some h

theorem look_congr (hc : d'.draft.copy? id = d.draft.copy? id)
    (hr : d'.draft.removed? id = d.draft.removed? id) (hs : d'.stored = d.stored) :
    d'.look id = d.look id := by
  unfold look Table.contains
  rw [show d'.draft.volatile.get? id = _ from hc, show d'.draft.tombstones.get? id = _ from hr, hs]

theorem look_keep {j : ObjectId} (hr : d.draft.removed? id = none) :
    (d.keep id b).look j = if j = id then some b else d.look j := by
  by_cases hj : j = id
  · subst hj
    rw [if_pos rfl]
    exact look_of_volatile hr ((keep_copy? ..).trans (if_pos rfl))
  · rw [if_neg hj]
    exact look_congr ((keep_copy? ..).trans (if_neg hj)) rfl rfl

theorem Reads.ends {α : Type} {w : Work Vault α} (h : Reads w) (hd : d.shared.Agreed) :
    Work.Ends w d (fun _ => d.Loaded) fun _ => d.Loaded :=
  (h.fetched (over_tier hd)).mono (fun _ _ hf => hf.loaded) fun _ _ hf => hf.loaded

end Desk

namespace Sound

/-! ## What a sound request sees -/

theorem own_of_look (h : Sound c n due dead d) (hl : d.look id = some a) : a.id = id := by
  obtain ⟨_, hcopy | ⟨_, hst⟩⟩ := Desk.look_eq_some hl
  · exact h.dated.own hcopy
  · exact (h.agreed.tidy hst).1

theorem fits_of_look (h : Sound c n due dead d) (hl : d.look id = some a) : a.Fits := by
  obtain ⟨_, hcopy | ⟨_, hst⟩⟩ := Desk.look_eq_some hl
  · exact h.wired.fits hcopy
  · rw [h.stored] at hst
    exact h.lineage.fits (h.chronicle.stored_past hst).1

/-- Under the identity of a node the request sees a node. -/
theorem node_of_look (h : Sound c n due dead d) {m : NodeId} (hl : d.look (.node m) = some a) :
    ∃ r, a.node? = some r :=
  (h.fits_of_look hl).node (h.own_of_look hl)

/-- Under the identity of an edge the request sees an edge. -/
theorem edge_of_look (h : Sound c n due dead d) {e : EdgeId} (hl : d.look (.edge e) = some a) :
    ∃ r, a.edge? = some r :=
  (h.fits_of_look hl).edge (h.own_of_look hl)

theorem look_of_copy? (h : Sound c n due dead d) (ha : d.draft.copy? id = some a) :
    d.look id = some a :=
  Desk.look_of_volatile (h.dated.keyed.removed?_of_copy? ha) ha

theorem unseen_iff (h : Sound c n due dead d) {e : EdgeId} :
    Unseen c d.draft e ↔ d.look (.edge e) = none := by
  rw [Desk.look_eq_none_iff, Table.contains_iff, h.stored]
  rfl

theorem copy?_of_look_none (h : Sound c n due dead d) (hl : d.look id = none) :
    d.draft.copy? id = none := by
  cases hx : d.draft.copy? id with
  | none => rfl
  | some x =>
    rw [h.look_of_copy? hx] at hl
    cases hl

/-! ## Steps -/

theorem fewer (h : Sound c n due dead d) (hk : k ≤ n) : Sound c k due dead d :=
  ⟨h.chronicle, h.lineage, h.agreed, h.stored, h.dated, h.wired, h.supply.mono hk fun _ hid => hid⟩

theorem rewired (h : Sound c n due dead d) (hw : Wired c due' dead' d.draft) :
    Sound c n due' dead' d :=
  ⟨h.chronicle, h.lineage, h.agreed, h.stored, h.dated, hw, h.supply⟩

theorem mentions_of_loaded (h : Sound c n due dead d) (hl : d.Loaded d')
    (hm : d'.draft.Mentions id) : c.Committed id ∨ d.draft.Mentions id := by
  rcases hm with ⟨x, hx⟩ | ⟨v, hv⟩
  · rcases hl.volatile id with hcopy | ⟨_, _, y, hy, _⟩
    · exact .inr (.inl ⟨x, hcopy.symm.trans hx⟩)
    · rw [h.stored] at hy
      exact .inl ⟨y, h.chronicle.stored_past hy⟩
  · rw [Draft.removed?, hl.tombstones] at hv
    exact .inr (.inr ⟨v, hv⟩)

/-- Reading keeps a request sound. -/
theorem loaded (h : Sound c n due dead d) (hl : d.Loaded d') : Sound c n due dead d' := by
  refine ⟨h.chronicle, h.lineage, hl.agreed, hl.stored_eq.trans h.stored,
    h.dated.loaded h.chronicle h.stored hl, h.wired.loaded h.chronicle h.lineage h.stored hl, ?_⟩
  rw [hl.mint]
  refine h.supply.mono (Nat.le_refl n) ?_
  rintro id (hcom | hres | hm)
  · exact .inl hcom
  · exact .inr (.inl hres)
  · exact (h.mentions_of_loaded hl hm).imp (fun hcom => hcom) .inr

/-- Work that only reads keeps a request sound. -/
theorem reads {α : Type} {w : Work Vault α} (h : Sound c n due dead d) (hw : Desk.Reads w) :
    Work.Ends w d (fun _ d' => d.Loaded d' ∧ Sound c n due dead d')
      fun _ d' => d.Loaded d' ∧ Sound c n due dead d' :=
  (hw.ends h.agreed).mono (fun _ _ hl => ⟨hl, h.loaded hl⟩) fun _ _ hl => ⟨hl, h.loaded hl⟩

/-- Changing a copy keeps a request sound if its wiring stays intact. -/
theorem edited (h : Sound c n due dead d) (ha : d.draft.copy? id = some a) (hid : b.id = a.id)
    (hv : b.version = a.version) (hd : b.dirty = true)
    (hw : Wired c due' dead (d.keep id b).draft) :
    Sound c n due' dead (d.keep id b) := by
  refine ⟨h.chronicle, h.lineage, h.agreed, h.stored, h.dated.edit ha hid hv hd, hw, ?_⟩
  refine h.supply.mono (Nat.le_refl n) ?_
  rintro j (hcom | hres | ⟨x, hx⟩ | hrem)
  · exact .inl hcom
  · exact .inr (.inl hres)
  · rw [Desk.keep_copy?] at hx
    split at hx
    · rename_i hj
      exact .inr (.inr (.inl ⟨a, hj ▸ ha⟩))
    · exact .inr (.inr (.inl ⟨x, hx⟩))
  · exact .inr (.inr (.inr hrem))

/-- Removing an object keeps a request sound if its wiring stays intact. -/
theorem buried (h : Sound c n due dead d) (ha : d.draft.copy? id = some a)
    (hw : Wired c due' dead (d.bury id a).draft) : Sound c n due' dead (d.bury id a) := by
  refine ⟨h.chronicle, h.lineage, h.agreed, h.stored, h.dated.bury h.chronicle ha, hw, ?_⟩
  refine h.supply.mono (Nat.le_refl n) ?_
  rintro j (hcom | hres | ⟨x, hx⟩ | ⟨v, hv⟩)
  · exact .inl hcom
  · exact .inr (.inl hres)
  · rw [Desk.bury_copy?] at hx
    split at hx
    · cases hx
    · exact .inr (.inr (.inl ⟨x, hx⟩))
  · rw [Desk.bury_removed?] at hv
    split at hv
    · rename_i hj
      exact .inr (.inr (.inl ⟨a, hj.1 ▸ ha⟩))
    · exact .inr (.inr (.inr ⟨v, hv⟩))

end Sound

/-- Reading an edge. -/
theorem Sound.loadEdge (h : Sound c n due dead d) (e : EdgeId) :
    Work.Ends (Desk.loadEdge e) d (fun found d' => d.Loaded d' ∧
      ((found = none ∧ d.look (.edge e) = none) ∨
        ∃ a r, found = some r ∧ d.look (.edge e) = some a ∧ EdgeIn d'.draft.copy? e a r))
      fun _ _ => False := by
  refine (Desk.read_ends h.agreed (.edge e)).andThen ?_
  rintro found d' ⟨rfl, hl, hv⟩
  refine .pure ⟨hl, ?_⟩
  cases ha : d.look (.edge e) with
  | none => exact .inl ⟨rfl, rfl⟩
  | some a =>
    obtain ⟨r, hr⟩ := h.edge_of_look ha
    exact .inr ⟨a, r, hr, rfl, hv a ha, hr⟩

/-- Reading a node. -/
theorem Sound.loadNode (h : Sound c n due dead d) (m : NodeId) :
    Work.Ends (Desk.loadNode m) d (fun found d' => d.Loaded d' ∧
      ((found = none ∧ d.look (.node m) = none) ∨
        ∃ a r, found = some r ∧ d.look (.node m) = some a ∧ NodeIn d'.draft.copy? m a r))
      fun _ _ => False := by
  refine (Desk.read_ends h.agreed (.node m)).andThen ?_
  rintro found d' ⟨rfl, hl, hv⟩
  refine .pure ⟨hl, ?_⟩
  cases ha : d.look (.node m) with
  | none => exact .inl ⟨rfl, rfl⟩
  | some a =>
    obtain ⟨r, hr⟩ := h.node_of_look ha
    exact .inr ⟨a, r, hr, rfl, hv a ha, hr⟩

/-! ## New objects -/

theorem Fresh.staged (h : Fresh c n d id) (hne : id ≠ a.id) : Fresh c n (d.staged a) id :=
  ⟨h.uncommitted, h.unreserved,
    fun hm => (Draft.mentions_of_stage hm).elim hne h.unmentioned, h.unnamed⟩

theorem Fresh.minted (h : Fresh c (n + 1) d id) : Fresh c n d.minted id := by
  refine ⟨h.uncommitted, h.unreserved, h.unmentioned, fun hi hn => ?_⟩
  exact h.unnamed (Nat.succ_lt_succ hi) (Mint.advance_names.1 hn)

namespace Sound

/-- What the mint names next is fresh. -/
theorem fresh_of_names (h : Sound c (n + 1) due dead d) (hn : d.shared.mint.Names 0 id) :
    Fresh c n d.minted id := by
  have hnew := h.supply.fresh (Nat.succ_pos n) hn
  refine ⟨fun hc => hnew (.inl hc), fun hr => hnew (.inr (.inl hr)),
    fun hm => hnew (.inr (.inr hm)), fun hi hn' => ?_⟩
  exact h.supply.distinct (Nat.succ_pos _) (Nat.succ_lt_succ hi) hn (Mint.advance_names.1 hn')

theorem minted (h : Sound c (n + 1) due dead d) : Sound c n due dead d.minted :=
  ⟨h.chronicle, h.lineage, ⟨h.agreed.tidy, h.agreed.idle, h.agreed.served⟩, h.stored, h.dated,
    h.wired, h.supply.advance.mono (Nat.le_refl n) fun _ hid => .inl hid⟩

/-- Adding a fresh object keeps a request sound if its wiring stays intact. -/
theorem staged (h : Sound c n due dead d) (hf : Fresh c n d a.id) (hv : a.version = 0)
    (hw : Wired c due' dead' (d.draft.stage a)) : Sound c n due' dead' (d.staged a) := by
  refine ⟨h.chronicle, h.lineage, h.agreed, h.stored,
    h.dated.stage h.chronicle hv hf.uncommitted hf.unreserved hf.unmentioned, hw, ?_⟩
  refine ⟨fun hi hn hid => ?_, h.supply.distinct⟩
  rcases hid with hcom | hres | hm
  · exact h.supply.fresh hi hn (.inl hcom)
  · exact h.supply.fresh hi hn (.inr (.inl hres))
  · rcases Draft.mentions_of_stage hm with rfl | hm
    · exact hf.unnamed hi hn
    · exact h.supply.fresh hi hn (.inr (.inr hm))

end Sound

/-! ## Changes to one node or edge -/

/-- A change that leaves alone what an object is and how it is wired. -/
structure Desk.Tame (change : Anchor → Anchor) : Prop where
  id : ∀ a, (change a).id = a.id
  version : ∀ a, (change a).version = a.version
  node : ∀ {a r}, a.node? = some r → ∃ r', (change a).node? = some r' ∧ r'.type = r.type ∧
    ∀ p, r'.edgesAt p = r.edgesAt p
  edge : ∀ {a r}, a.edge? = some r → ∃ r', (change a).edge? = some r' ∧
    r'.type = r.type ∧ r'.Alike r

theorem Desk.Tame.withFields (f : Anchor → Fields) : Desk.Tame fun a => a.withFields (f a) := by
  refine ⟨fun a => ?_, fun a => ?_, fun {a r} hr => ?_, fun {a r} hr => ?_⟩
  · cases hb : a.body <;> simp [Anchor.withFields, hb]
  · cases hb : a.body <;> simp [Anchor.withFields, hb]
  · cases hb : a.body with
    | node s =>
      simp only [Anchor.node?, hb, Option.some.injEq] at hr
      subst hr
      refine ⟨{ s with fields := f a }, by simp [Anchor.withFields, Anchor.node?, hb], rfl, ?_⟩
      intro p
      cases p <;> rfl
    | edge s => simp [Anchor.node?, hb] at hr
  · cases hb : a.body with
    | node s => simp [Anchor.edge?, hb] at hr
    | edge s =>
      simp only [Anchor.edge?, hb, Option.some.injEq] at hr
      subst hr
      refine ⟨{ s with fields := f a }, by simp [Anchor.withFields, Anchor.edge?, hb], rfl, rfl, ?_⟩
      intro p
      cases p <;> rfl

theorem Desk.Tame.access (f : Anchor → Access) :
    Desk.Tame fun a => { a with access := f a } :=
  ⟨fun _ => rfl, fun _ => rfl, fun {_ r} hr => ⟨r, hr, rfl, fun _ => rfl⟩,
    fun {_ r} hr => ⟨r, hr, rfl, rfl, fun _ => rfl⟩⟩

/-- A tame change of an object keeps a request sound. -/
theorem Sound.update (h : Sound c n due dead d) {change : Anchor → Anchor}
    (ht : Desk.Tame change) (id : ObjectId) :
    Work.Ends (Desk.update? id change) d (fun _ d' => Sound c n due dead d') fun _ _ => False := by
  refine (Desk.change_ends h.agreed id change).imp ?_
  rintro before d' ⟨_, ⟨_, hl⟩ | ⟨a, d₁, _, hl, ha, rfl⟩⟩
  · exact h.loaded hl
  · have h₁ := h.loaded hl
    have hlook := h₁.look_of_copy? ha
    refine h₁.edited ha (ht.id a) (ht.version a) rfl ?_
    cases id with
    | node m =>
      obtain ⟨r, hr⟩ := h₁.node_of_look hlook
      obtain ⟨r', hr', hty, hsame⟩ := ht.node hr
      refine h₁.wired.rewire h₁.lineage h₁.dated ⟨ha, hr⟩ (b := { change a with dirty := true })
        hr' (ht.id a) (ht.version a) hty rfl ?_ ?_ ?_
      · intro p
        rw [hsame]
        exact h₁.wired.nodup ⟨ha, hr⟩ p
      · intro p e he
        rw [hsame]
        exact .inl he
      · intro p e he
        rw [hsame] at he
        exact .inl he
    | edge e =>
      obtain ⟨r, hr⟩ := h₁.edge_of_look hlook
      obtain ⟨r', hr', hty, halike⟩ := ht.edge hr
      exact h₁.wired.editEdge h₁.lineage h₁.dated ⟨ha, hr⟩ (b := { change a with dirty := true })
        hr' (ht.id a) (ht.version a) hty halike

end Wayfarer
