import Wayfarer.Proofs.Shared
import Wayfarer.Proofs.Work

/-!
# What a request sees

`Draft.view` is the anchor of an object as a request sees it: its own copy if it
has one, otherwise what the tiers below hold, and nothing if the request removed
the object. A `Tier` says what a durable tier holds, provided that reading it
does not fail; a desk stands `Over` such a tier if its cache serves nothing
else.

* `Desk.load_ends`, `Desk.update?_ends` and `Desk.delete_ends` say what reading,
  changing and removing an object do. A read answers what is seen and changes
  nothing but copies of what the tier holds (`Desk.Fetched`).
* `Desk.look` and `Desk.Loaded` are the same over a vault.
-/

namespace Wayfarer

/-! ## Drafts over contents -/

namespace Draft

/-- The anchor of an object as a request with this draft sees it over certain
contents. -/
def view (d : Draft) (content : Table ObjectId Anchor) (id : ObjectId) : Option Anchor :=
  if d.tombstones.contains id then none else (d.volatile.get? id).or (content.get? id)

/-- The copies of a draft once it was filled in with an object. -/
def recollect (d : Draft) (content : Table ObjectId Anchor) (id : ObjectId) :
    Table ObjectId Anchor :=
  if d.tombstones.contains id || d.volatile.contains id then d.volatile
  else
    match content.get? id with
    | some a => d.volatile.insert id a
    | none => d.volatile

/-- One draft comes from another by reading alone: copies of what the tiers
below hold may have been added, and nothing else has changed. -/
structure Filled (content : Table ObjectId Anchor) (d d' : Draft) : Prop where
  volatile : ∀ id, d'.volatile.get? id = d.volatile.get? id ∨
    (d.volatile.get? id = none ∧ d.tombstones.get? id = none ∧
      ∃ a, content.get? id = some a ∧ d'.volatile.get? id = some a)
  tombstones : d'.tombstones = d.tombstones

variable {content : Table ObjectId Anchor} {d d' : Draft} {id : ObjectId} {a : Anchor}

theorem view_of_tombstone {v : UInt64} (h : d.tombstones.get? id = some v) :
    d.view content id = none := by
  simp [view, Table.contains, h]

theorem view_of_volatile (ht : d.tombstones.get? id = none) (h : d.volatile.get? id = some a) :
    d.view content id = some a := by
  simp [view, Table.contains, ht, h]

theorem view_of_content (ht : d.tombstones.get? id = none) (h : d.volatile.get? id = none) :
    d.view content id = content.get? id := by
  simp [view, Table.contains, ht, h]

theorem view_congr (hc : d'.volatile.get? id = d.volatile.get? id)
    (ht : d'.tombstones.get? id = d.tombstones.get? id) :
    d'.view content id = d.view content id := by
  unfold view Table.contains
  rw [hc, ht]

theorem view_eq_none_iff : d.view content id = none ↔ d.tombstones.contains id = true ∨
    (d.volatile.get? id = none ∧ content.get? id = none) := by
  unfold view
  split <;> simp_all

theorem view_eq_some (h : d.view content id = some a) : d.tombstones.get? id = none ∧
    (d.volatile.get? id = some a ∨ (d.volatile.get? id = none ∧ content.get? id = some a)) := by
  cases ht : d.tombstones.get? id with
  | some v =>
    rw [view_of_tombstone ht] at h
    cases h
  | none =>
    refine ⟨rfl, ?_⟩
    cases hv : d.volatile.get? id with
    | some b =>
      rw [view_of_volatile ht hv] at h
      exact .inl h
    | none =>
      rw [view_of_content ht hv] at h
      exact .inr ⟨rfl, h⟩

namespace Filled

theorem refl : Filled content d d := ⟨fun _ => .inl rfl, rfl⟩

theorem trans {d₁ d₂ d₃ : Draft} (h : Filled content d₁ d₂) (h' : Filled content d₂ d₃) :
    Filled content d₁ d₃ := by
  refine ⟨?_, h'.tombstones.trans h.tombstones⟩
  intro id
  rcases h'.volatile id with h3 | ⟨h2, ht, a, hs, h3⟩
  · rcases h.volatile id with h2 | ⟨h1, ht, a, hs, h2⟩
    · exact .inl (h3.trans h2)
    · exact .inr ⟨h1, ht, a, hs, h3.trans h2⟩
  · rcases h.volatile id with h1 | ⟨_, _, a', _, h2'⟩
    · exact .inr ⟨h1.symm.trans h2, h.tombstones ▸ ht, a, hs, h3⟩
    · rw [h2'] at h2
      cases h2

/-- A copy that the request already had is still there. -/
theorem kept (h : Filled content d d') (ha : d.volatile.get? id = some a) :
    d'.volatile.get? id = some a := by
  rcases h.volatile id with hv | ⟨hv, _⟩
  · exact hv.trans ha
  · rw [ha] at hv
    cases hv

theorem view_eq (h : Filled content d d') (id : ObjectId) :
    d'.view content id = d.view content id := by
  unfold view
  rw [h.tombstones]
  rcases h.volatile id with hv | ⟨hv, _, a, hs, hv'⟩
  · rw [hv]
  · rw [hv, hv', hs]
    rfl

end Filled

/-- What `recollect` leaves is a draft filled in with what is seen of the
object. -/
theorem filled_of_recollect (hv : d'.volatile = d.recollect content id)
    (ht : d'.tombstones = d.tombstones) : Filled content d d' ∧
      ∀ a, d.view content id = some a → d'.volatile.get? id = some a := by
  unfold recollect at hv
  split at hv
  · rename_i hknown
    refine ⟨⟨fun j => .inl (by rw [hv]), ht⟩, fun a ha => ?_⟩
    obtain ⟨hrem, hcopy | ⟨hno, _⟩⟩ := view_eq_some ha
    · rw [hv, hcopy]
    · simp [Table.contains, hrem, hno] at hknown
  · rename_i hnew
    simp only [Table.contains, Bool.or_eq_true, not_or, Bool.not_eq_true,
      Option.isSome_eq_false_iff, Option.isNone_iff_eq_none] at hnew
    rw [view_of_content hnew.1 hnew.2]
    cases hc : content.get? id with
    | none =>
      rw [hc] at hv
      exact ⟨⟨fun j => .inl (by rw [hv]), ht⟩, fun a ha => by cases ha⟩
    | some a =>
      rw [hc] at hv
      refine ⟨⟨fun j => ?_, ht⟩, ?_⟩
      · by_cases hj : j = id
        · subst hj
          exact .inr ⟨hnew.2, hnew.1, a, hc, by rw [hv, Table.get?_insert, if_pos rfl]⟩
        · exact .inl (by rw [hv, Table.get?_insert, if_neg hj])
      · rintro b ⟨⟩
        rw [hv, Table.get?_insert, if_pos rfl]

end Draft

/-! ## Durable tiers that can be read -/

/-- The contents of a durable tier, for as long as its state is one of those
that hold them: clean anchors under their own identities, each of which can be
read. -/
structure Tier (σ : Type) [Durable σ] where
  content : Table ObjectId Anchor
  holds : σ → Prop
  tidy : ∀ {id a}, content.get? id = some a → a.id = id ∧ a.dirty = false
  fetch : ∀ {s}, holds s → ∀ id, ∃ s', Durable.fetch id s = .ok (content.get? id) s' ∧ holds s'
  size_le : ∀ {s}, holds s → content.size ≤ Durable.size s

/-- The contents of a vault. -/
def Tier.ofVault (vault : Vault)
    (tidy : ∀ {id a}, vault.anchors.get? id = some a → a.id = id ∧ a.dirty = false) :
    Tier Vault where
  content := vault.anchors
  holds := (· = vault)
  tidy := tidy
  fetch := by
    rintro s rfl id
    exact ⟨s, rfl, rfl⟩
  size_le := by
    rintro s rfl
    exact Nat.le_refl _

namespace Desk

variable {σ : Type} [Durable σ] {t : Tier σ}

/-- A desk whose shared tiers hold certain contents, and whose cache serves
nothing else. -/
structure Over (t : Tier σ) (d : Desk σ) : Prop where
  holds : t.holds d.shared.durable
  coherent : d.shared.Coherent t.content

/-- One desk comes from another by reading alone. -/
structure Fetched (t : Tier σ) (d d' : Desk σ) : Prop
    extends Draft.Filled t.content d.draft d'.draft where
  mint : d'.shared.mint = d.shared.mint
  above : d'.Over t

/-- One desk comes from another by reading a certain object. -/
structure Recalled (t : Tier σ) (id : ObjectId) (d d' : Desk σ) : Prop where
  volatile : d'.draft.volatile = d.draft.recollect t.content id
  tombstones : d'.draft.tombstones = d.draft.tombstones
  mint : d'.shared.mint = d.shared.mint
  above : d'.Over t

namespace Fetched

variable {d d' d₁ d₂ d₃ : Desk σ}

theorem refl (h : d.Over t) : Fetched t d d := ⟨.refl, rfl, h⟩

theorem trans (h : Fetched t d₁ d₂) (h' : Fetched t d₂ d₃) : Fetched t d₁ d₃ :=
  ⟨h.toFilled.trans h'.toFilled, h'.mint.trans h.mint, h'.above⟩

end Fetched

theorem Recalled.fetched {d d' : Desk σ} {id : ObjectId} (h : Recalled t id d d') :
    Fetched t d d' :=
  ⟨(Draft.filled_of_recollect h.volatile h.tombstones).1, h.mint, h.above⟩

theorem Recalled.copied {d d' : Desk σ} {id : ObjectId} (h : Recalled t id d d') {a : Anchor}
    (ha : d.draft.view t.content id = some a) : d'.draft.volatile.get? id = some a :=
  (Draft.filled_of_recollect h.volatile h.tombstones).2 a ha

/-! ## Reading -/

omit [Durable σ] in
theorem onDurable_of_ok {α : Type} {act : EStateM Error σ α} {d : Desk σ} {a : α} {s : σ}
    (h : act d.shared.durable = .ok a s) :
    onDurable act d = .ok a { d with shared := { d.shared with durable := s } } := by
  simp only [onDurable, Shared.onDurable, h]

omit [Durable σ] in
theorem onDurable_of_error {α : Type} {act : EStateM Error σ α} {d : Desk σ} {e : Error} {s : σ}
    (h : act d.shared.durable = .error e s) :
    onDurable act d = .error e { d with shared := { d.shared with durable := s } } := by
  simp only [onDurable, Shared.onDurable, h]

theorem fetch_ends {d : Desk σ} (h : d.Over t) {id : ObjectId}
    (ht : d.draft.tombstones.get? id = none) (hv : d.draft.volatile.get? id = none) :
    Work.Ends (fetch id) d (fun found d' => found = (d.draft.view t.content id).isSome ∧
      Recalled t id d d') fun _ _ => False := by
  rw [Draft.view_of_content ht hv]
  obtain ⟨s', hfetch, hholds⟩ := t.fetch h.holds id
  refine .bind (.modify (.bind (.of_ok (onDurable_of_ok hfetch) ?_)))
  have hnew : (d.draft.tombstones.contains id || d.draft.volatile.contains id) = false := by
    simp [Table.contains, ht, hv]
  have hcoh : ({ d.shared with durable := s' } : Shared σ).Coherent t.content :=
    h.coherent.congr rfl rfl
  cases hs : t.content.get? id with
  | none =>
    refine .pure ⟨rfl, ?_, rfl, rfl, hholds, hcoh⟩
    simp [Draft.recollect, hnew, hs, count]
  | some a =>
    obtain ⟨hid, hclean⟩ := t.tidy hs
    refine .bind (.modify (.pure ⟨rfl, ?_, rfl, rfl, hholds, ?_⟩))
    · simp [Draft.recollect, hnew, hs, keep, count, Shared.clean_of_not_dirty hclean]
    · rw [Shared.clean_of_not_dirty hclean]
      exact hcoh.remember (by rw [hid]; exact hs) hclean

theorem ensure_ends {d : Desk σ} (h : d.Over t) (id : ObjectId) :
    Work.Ends (ensure id) d (fun found d' => found = (d.draft.view t.content id).isSome ∧
      Recalled t id d d') fun _ _ => False := by
  refine .bind (.get ?_)
  cases ht : d.draft.tombstones.get? id with
  | some v =>
    have hgone : d.draft.tombstones.contains id = true := Table.contains_iff.2 ⟨v, ht⟩
    rw [if_pos hgone, Draft.view_of_tombstone ht]
    exact .pure ⟨rfl, by simp [Draft.recollect, hgone], rfl, rfl, h⟩
  | none =>
    rw [if_neg (by simp [Table.contains, ht])]
    cases hv : d.draft.volatile.get? id with
    | some a =>
      have hhere : d.draft.volatile.contains id = true := Table.contains_iff.2 ⟨a, hv⟩
      rw [if_pos hhere, Draft.view_of_volatile ht hv]
      exact .bind (.set (.pure ⟨rfl, by simp [Draft.recollect, hhere, count], rfl, rfl, h.1, h.2⟩))
    | none =>
      have hnew : (d.draft.tombstones.contains id || d.draft.volatile.contains id) = false := by
        simp [Table.contains, ht, hv]
      rw [if_neg (by simp [Table.contains, hv])]
      split
      · rename_i a hcache
        have hs := h.coherent.get? hcache
        rw [Draft.view_of_content ht hv, hs]
        refine .bind (.set (.pure ⟨rfl, ?_, rfl, rfl, h.1, h.2⟩))
        simp [Draft.recollect, hnew, hs, keep, count]
      · exact fetch_ends h ht hv

/-- Reading answers what the request sees and leaves a copy of it. -/
theorem load_ends {d : Desk σ} (h : d.Over t) (id : ObjectId) :
    Work.Ends (load id) d (fun found d' => found = d.draft.view t.content id ∧ Recalled t id d d')
      fun _ _ => False := by
  refine (ensure_ends h id).andThen ?_
  rintro found d' ⟨rfl, hr⟩
  cases ha : d.draft.view t.content id with
  | none => exact .pure ⟨rfl, hr⟩
  | some a => exact .bind (.get (.pure ⟨hr.copied ha, hr⟩))

/-! ## Changing and removing -/

/-- The desk after an object was removed of which the request had the copy
`a`. -/
def bury (d : Desk σ) (id : ObjectId) (a : Anchor) : Desk σ :=
  { d with
    draft := { d.draft with
      volatile := d.draft.volatile.erase id,
      tombstones :=
        if 0 < a.version then d.draft.tombstones.insert id a.version else d.draft.tombstones } }

/-- The desk after one use of the mint. -/
def minted (d : Desk σ) : Desk σ :=
  { d with shared := { d.shared with mint := d.shared.mint.advance } }

/-- The desk with an anchor staged. -/
def staged (d : Desk σ) (a : Anchor) : Desk σ := { d with draft := d.draft.stage a }

/-- A change is made to the copy that reading leaves behind. -/
theorem update?_ends {d : Desk σ} (h : d.Over t) (id : ObjectId) (change : Anchor → Anchor) :
    Work.Ends (update? id change) d (fun before d' => before = d.draft.view t.content id ∧
      ∃ d₁, Recalled t id d d₁ ∧
        d' = before.elim d₁ fun a => d₁.keep id { change a with dirty := true })
      fun _ _ => False := by
  refine (load_ends h id).andThen ?_
  rintro found d₁ ⟨rfl, hr⟩
  cases d.draft.view t.content id with
  | none => exact .pure ⟨rfl, d₁, hr, rfl⟩
  | some a => exact .bind (.modify (.pure ⟨rfl, d₁, hr, rfl⟩))

theorem delete_ends {d : Desk σ} (h : d.Over t) (id : ObjectId) :
    Work.Ends (delete id) d (fun _ d' => ∃ d₁, Recalled t id d d₁ ∧
      d' = (d.draft.view t.content id).elim d₁ (d₁.bury id)) fun _ _ => False := by
  refine (load_ends h id).andThen ?_
  rintro found d₁ ⟨rfl, hr⟩
  cases d.draft.view t.content id with
  | none => exact .pure ⟨d₁, hr, rfl⟩
  | some a => exact .modify ⟨d₁, hr, rfl⟩

end Desk

/-! ## Over a vault -/

namespace Desk

/-- The anchors of the vault below. -/
abbrev stored (d : Desk Vault) : Table ObjectId Anchor := d.shared.stored

/-- The anchor of an object as the request sees it. -/
def look (d : Desk Vault) (id : ObjectId) : Option Anchor :=
  if d.draft.tombstones.contains id then none
  else (d.draft.volatile.get? id).or (d.stored.get? id)

theorem look_eq_view (d : Desk Vault) (id : ObjectId) : d.look id = d.draft.view d.stored id := rfl

/-- One desk comes from another by reading alone: copies of stored anchors may
have been added, and nothing else that a request can see has changed. -/
structure Loaded (d d' : Desk Vault) : Prop extends Draft.Filled d.stored d.draft d'.draft where
  durable : d'.shared.durable = d.shared.durable
  mint : d'.shared.mint = d.shared.mint
  agreed : d'.shared.Agreed

theorem look_of_volatile {d : Desk Vault} {id : ObjectId} {a : Anchor}
    (ht : d.draft.tombstones.get? id = none) (h : d.draft.volatile.get? id = some a) :
    d.look id = some a :=
  Draft.view_of_volatile ht h

theorem look_of_stored {d : Desk Vault} {id : ObjectId}
    (ht : d.draft.tombstones.get? id = none) (h : d.draft.volatile.get? id = none) :
    d.look id = d.stored.get? id :=
  Draft.view_of_content ht h

theorem look_eq_none_iff {d : Desk Vault} {id : ObjectId} :
    d.look id = none ↔ d.draft.tombstones.contains id = true ∨
      (d.draft.volatile.get? id = none ∧ d.stored.get? id = none) :=
  Draft.view_eq_none_iff

namespace Loaded

theorem refl {d : Desk Vault} (h : d.shared.Agreed) : Loaded d d := ⟨.refl, rfl, rfl, h⟩

theorem stored_eq {d d' : Desk Vault} (h : Loaded d d') : d'.stored = d.stored := by
  simp only [stored, Shared.stored, h.durable]

theorem trans {d₁ d₂ d₃ : Desk Vault} (h : Loaded d₁ d₂) (h' : Loaded d₂ d₃) : Loaded d₁ d₃ :=
  ⟨h.toFilled.trans (h.stored_eq ▸ h'.toFilled), h'.durable.trans h.durable, h'.mint.trans h.mint,
    h'.agreed⟩

theorem look_eq {d d' : Desk Vault} (h : Loaded d d') (id : ObjectId) :
    d'.look id = d.look id := by
  rw [look_eq_view, h.stored_eq]
  exact h.view_eq id

end Loaded

/-- The contents of the vault below a desk. -/
abbrev tier {d : Desk Vault} (h : d.shared.Agreed) : Tier Vault := .ofVault d.shared.durable h.tidy

theorem over_tier {d : Desk Vault} (h : d.shared.Agreed) : d.Over (tier h) := ⟨rfl, h.coherent⟩

theorem Fetched.loaded {d d' : Desk Vault} {h : d.shared.Agreed} (hf : Fetched (tier h) d d') :
    Loaded d d' := by
  have hdur : d'.shared.durable = d.shared.durable := hf.above.holds
  refine ⟨hf.toFilled, hdur, hf.mint, ?_⟩
  have hst : d'.shared.stored = d.stored := by simp only [Shared.stored, hdur]
  exact .of_coherent (hst ▸ h.tidy) (hst ▸ hf.above.coherent)

/-- What reading an object comes to: an answer, and a copy of what it
answers. -/
def Read (d : Desk Vault) (id : ObjectId) (found : Option Anchor) (d' : Desk Vault) : Prop :=
  found = d.look id ∧ Loaded d d' ∧ ∀ a, found = some a → d'.draft.volatile.get? id = some a

theorem read_ends {d : Desk Vault} (h : d.shared.Agreed) (id : ObjectId) :
    Work.Ends (load id) d (Read d id) fun _ _ => False := by
  refine (load_ends (over_tier h) id).imp ?_
  rintro found d' ⟨rfl, hr⟩
  exact ⟨rfl, hr.fetched.loaded, fun a ha => hr.copied ha⟩

theorem change_ends {d : Desk Vault} (h : d.shared.Agreed) (id : ObjectId)
    (change : Anchor → Anchor) :
    Work.Ends (update? id change) d (fun before d' => before = d.look id ∧
      ((before = none ∧ Loaded d d') ∨ ∃ a d₁, before = some a ∧ Loaded d d₁ ∧
        d₁.draft.volatile.get? id = some a ∧ d' = d₁.keep id { change a with dirty := true }))
      fun _ _ => False := by
  refine (update?_ends (over_tier h) id change).imp ?_
  rintro before d' ⟨rfl, d₁, hr, rfl⟩
  refine ⟨rfl, ?_⟩
  cases ha : d.draft.view (tier h).content id with
  | none => exact .inl ⟨rfl, hr.fetched.loaded⟩
  | some a => exact .inr ⟨a, d₁, rfl, hr.fetched.loaded, hr.copied ha, rfl⟩

theorem remove_ends {d : Desk Vault} (h : d.shared.Agreed) (id : ObjectId) :
    Work.Ends (delete id) d (fun _ d' => (d.look id = none ∧ Loaded d d') ∨
      ∃ a d₁, d.look id = some a ∧ Loaded d d₁ ∧ d₁.draft.volatile.get? id = some a ∧
        d' = d₁.bury id a) fun _ _ => False := by
  refine (delete_ends (over_tier h) id).imp ?_
  rintro _ d' ⟨d₁, hr, rfl⟩
  rw [look_eq_view]
  cases ha : d.draft.view d.stored id with
  | none =>
    rw [show d.draft.view (tier h).content id = none from ha]
    exact .inl ⟨rfl, hr.fetched.loaded⟩
  | some a =>
    rw [show d.draft.view (tier h).content id = some a from ha]
    exact .inr ⟨a, d₁, rfl, hr.fetched.loaded, hr.copied ha, rfl⟩

end Desk

end Wayfarer
