import Wayfarer.Proofs.Desk

/-!
# Copies and commits

Every copy that a request holds is either a committed anchor, or a change made
to one, or new. The version of the copy says which committed anchor that was:
`Chronicle` states that an identity and a version determine a committed anchor,
and `Dated` that a draft is made of such copies. Every step of a request keeps
its draft dated: `Dated.loaded`, `Dated.edit`, `Dated.stage`, `Dated.bury`.
-/

namespace Wayfarer

/-- The copy of an object in a draft. -/
abbrev Draft.copy? (d : Draft) (id : ObjectId) : Option Anchor := d.volatile.get? id

/-- The version at which an object was removed in a draft. -/
abbrev Draft.removed? (d : Draft) (id : ObjectId) : Option UInt64 := d.tombstones.get? id

/-- Whether an object occurs in a draft at all. -/
def Draft.Mentions (d : Draft) (id : ObjectId) : Prop :=
  (∃ a, d.copy? id = some a) ∨ ∃ v, d.removed? id = some v

/-- Whether an object awaits a commit: it was changed, created or removed. -/
def Draft.Pending (d : Draft) (id : ObjectId) : Prop :=
  (∃ a, d.copy? id = some a ∧ a.dirty = true) ∨ ∃ v, d.removed? id = some v

/-- The version at which a request holds an object, or would if it loaded it
now; zero if there is no such object. -/
def Draft.held (d : Draft) (stored : Table ObjectId Anchor) (id : ObjectId) : UInt64 :=
  (d.removed? id).getD (((d.copy? id).or (stored.get? id)).elim 0 Anchor.version)

/-- What surrounds a request while it works: the anchors committed so far, what
of them is stored now, identities that others may use, and the versions at which
the request holds objects. -/
structure Setting where
  past : Anchor → Prop
  stored : Table ObjectId Anchor
  reserved : ObjectId → Prop
  held : ObjectId → UInt64

/-- An object of which some version was committed. -/
def Setting.Committed (c : Setting) (id : ObjectId) : Prop := ∃ p, c.past p ∧ p.id = id

/-- The laws of committed anchors: what is stored was committed, committed
anchors are clean, count their commits from one, are determined by identity and
version, are stored at their newest, and have not used up the versions there
are. -/
structure Chronicle (past : Anchor → Prop) (stored : Table ObjectId Anchor) : Prop where
  stored_past : ∀ {id a}, stored.get? id = some a → past a ∧ a.id = id
  clean : ∀ {a}, past a → a.dirty = false
  positive : ∀ {a}, past a → a.version ≠ 0
  unique : ∀ {a b}, past a → past b → a.id = b.id → a.version = b.version → a = b
  newest : ∀ {a b}, stored.get? a.id = some b → past a → a.version ≤ b.version
  roomy : ∀ {a}, past a → a.version + 1 ≠ 0

/-- A draft that keeps its copies under their own identities, and none of what
it removed. -/
structure Draft.Keyed (d : Draft) : Prop where
  own : ∀ {id a}, d.copy? id = some a → a.id = id
  apart : ∀ {id v}, d.removed? id = some v → d.copy? id = none

/-- A draft made of copies whose versions tell where they come from. -/
structure Dated (c : Setting) (d : Draft) : Prop where
  own : ∀ {id a}, d.copy? id = some a → a.id = id
  apart : ∀ {id v}, d.removed? id = some v → d.copy? id = none
  clean : ∀ {id a}, d.copy? id = some a → a.dirty = false → c.past a
  based : ∀ {id a}, d.copy? id = some a → a.version ≠ 0 →
    ∃ p, c.past p ∧ p.id = id ∧ p.version = a.version
  born : ∀ {id a}, d.copy? id = some a → a.version = 0 →
    a.dirty = true ∧ ¬ c.Committed id ∧ ¬ c.reserved id
  buried : ∀ {id v}, d.removed? id = some v →
    v ≠ 0 ∧ ∃ p, c.past p ∧ p.id = id ∧ p.version = v
  held : ∀ id, d.held c.stored id = c.held id

namespace Desk

variable {σ : Type}

@[simp] theorem keep_copy? (d : Desk σ) (id j : ObjectId) (a : Anchor) :
    (d.keep id a).draft.copy? j = if j = id then some a else d.draft.copy? j :=
  Table.get?_insert ..

@[simp] theorem keep_removed? (d : Desk σ) (id j : ObjectId) (a : Anchor) :
    (d.keep id a).draft.removed? j = d.draft.removed? j := rfl

@[simp] theorem keep_shared (d : Desk σ) (id : ObjectId) (a : Anchor) :
    (d.keep id a).shared = d.shared := rfl

@[simp] theorem bury_copy? (d : Desk σ) (id j : ObjectId) (a : Anchor) :
    (d.bury id a).draft.copy? j = if j = id then none else d.draft.copy? j :=
  Table.get?_erase ..

theorem bury_removed? (d : Desk σ) (id j : ObjectId) (a : Anchor) :
    (d.bury id a).draft.removed? j =
      if j = id ∧ a.version ≠ 0 then some a.version else d.draft.removed? j := by
  unfold bury Draft.removed?
  by_cases hv : a.version = 0
  · simp [hv]
  · have hpos : 0 < a.version := UInt64.pos_iff_ne_zero.2 hv
    simp [hv, hpos, Table.get?_insert]

@[simp] theorem bury_shared (d : Desk σ) (id : ObjectId) (a : Anchor) :
    (d.bury id a).shared = d.shared := rfl

end Desk

namespace Draft

@[simp] theorem stage_copy? (d : Draft) (a : Anchor) (j : ObjectId) :
    (d.stage a).copy? j = if j = a.id then some { a with dirty := true } else d.copy? j :=
  Table.get?_insert ..

@[simp] theorem stage_removed? (d : Draft) (a : Anchor) (j : ObjectId) :
    (d.stage a).removed? j = if j = a.id then none else d.removed? j :=
  Table.get?_erase ..

theorem mentions_of_stage {d : Draft} {a : Anchor} {id : ObjectId}
    (h : (d.stage a).Mentions id) :
    id = a.id ∨ d.Mentions id := by
  rcases h with ⟨x, hx⟩ | ⟨v, hv⟩
  · rw [stage_copy?] at hx
    split at hx
    · exact .inl ‹_›
    · exact .inr (.inl ⟨x, hx⟩)
  · rw [stage_removed?] at hv
    split at hv
    · cases hv
    · exact .inr (.inr ⟨v, hv⟩)

end Draft

/-! ## Keyed drafts -/

namespace Draft.Keyed

variable {content : Table ObjectId Anchor} {d d' : Draft}

theorem removed?_of_copy? (h : d.Keyed) {id : ObjectId} {a : Anchor} (ha : d.copy? id = some a) :
    d.removed? id = none := by
  cases hr : d.removed? id with
  | none => rfl
  | some v =>
    rw [h.apart hr] at ha
    cases ha

theorem congr (h : d.Keyed) (hv : d'.volatile = d.volatile) (ht : d'.tombstones = d.tombstones) :
    d'.Keyed := by
  refine ⟨fun ha => ?_, fun hr => ?_⟩
  · rw [copy?, hv] at ha
    exact h.own ha
  · rw [removed?, ht] at hr
    rw [copy?, hv]
    exact h.apart hr

theorem of_empty (h : d.volatile = Table.empty) : d.Keyed := by
  refine ⟨fun ha => ?_, fun _ => by rw [copy?, h]; rfl⟩
  rw [copy?, h] at ha
  cases ha

theorem filled (h : d.Keyed)
    (htidy : ∀ {id a}, content.get? id = some a → a.id = id ∧ a.dirty = false)
    (hf : Filled content d d') : d'.Keyed := by
  refine ⟨?_, ?_⟩
  · intro id a ha
    rcases hf.volatile id with hv | ⟨_, _, b, hb, hv⟩
    · exact h.own (hv.symm.trans ha)
    · rw [show d'.copy? id = some b from hv] at ha
      cases ha
      exact (htidy hb).1
  · intro id v hr
    rw [show d'.removed? id = d.removed? id by simp only [removed?, hf.tombstones]] at hr
    rcases hf.volatile id with hv | ⟨_, ht, _⟩
    · exact hv.trans (h.apart hr)
    · rw [show d.tombstones.get? id = some v from hr] at ht
      cases ht

theorem keep {σ : Type} {d : Desk σ} (h : d.draft.Keyed) {id : ObjectId} {a : Anchor}
    (hid : a.id = id) (hr : d.draft.removed? id = none) : (d.keep id a).draft.Keyed := by
  refine ⟨?_, ?_⟩
  · intro j b hb
    rw [Desk.keep_copy?] at hb
    split at hb
    · rename_i hj
      cases hb
      rw [hid, hj]
    · exact h.own hb
  · intro j v hv
    rw [Desk.keep_removed?] at hv
    rw [Desk.keep_copy?, if_neg]
    · exact h.apart hv
    · intro hj
      rw [hj, hr] at hv
      cases hv

theorem bury {σ : Type} {d : Desk σ} (h : d.draft.Keyed) (id : ObjectId) (a : Anchor) :
    (d.bury id a).draft.Keyed := by
  refine ⟨?_, ?_⟩
  · intro j b hb
    rw [Desk.bury_copy?] at hb
    split at hb
    · cases hb
    · exact h.own hb
  · intro j v hv
    rw [Desk.bury_copy?]
    split
    · rfl
    · rename_i hj
      rw [Desk.bury_removed?, if_neg fun hh => hj hh.1] at hv
      exact h.apart hv

theorem stage (h : d.Keyed) (a : Anchor) : (d.stage a).Keyed := by
  refine ⟨?_, ?_⟩
  · intro j b hb
    rw [Draft.stage_copy?] at hb
    split at hb
    · rename_i hj
      cases hb
      exact hj.symm
    · exact h.own hb
  · intro j v hv
    rw [Draft.stage_removed?] at hv
    split at hv
    · cases hv
    · rename_i hj
      rw [Draft.stage_copy?, if_neg hj]
      exact h.apart hv

end Draft.Keyed

namespace Chronicle

variable {c : Setting}

theorem stored_of_held (h : Chronicle c.past c.stored) {id : ObjectId} {p a : Anchor}
    (hp : c.past p) (hid : p.id = id) (ha : c.stored.get? id = some a)
    (hv : a.version = p.version) : a = p := by
  obtain ⟨hpa, hida⟩ := h.stored_past ha
  exact h.unique hpa hp (hida.trans hid.symm) hv

theorem stored_eq_none (h : Chronicle c.past c.stored) {id : ObjectId}
    (hn : ¬ c.Committed id) : c.stored.get? id = none := by
  cases ha : c.stored.get? id with
  | none => rfl
  | some a => exact absurd ⟨a, h.stored_past ha⟩ hn

end Chronicle

namespace Dated

variable {c : Setting} {d d' : Desk Vault}

theorem keyed {d : Draft} (h : Dated c d) : d.Keyed := ⟨h.own, h.apart⟩

theorem committed_of_removed {d : Draft} (h : Dated c d) {id : ObjectId} {v : UInt64}
    (hr : d.removed? id = some v) : c.Committed id := by
  obtain ⟨_, p, hp, hid, _⟩ := h.buried hr
  exact ⟨p, hp, hid⟩

theorem loaded (hc : Chronicle c.past c.stored) (hs : d.stored = c.stored)
    (h : Dated c d.draft) (hl : d.Loaded d') : Dated c d'.draft := by
  have hcopy : ∀ {id a}, d'.draft.copy? id = some a →
      d.draft.copy? id = some a ∨ (d.draft.copy? id = none ∧ d.draft.removed? id = none ∧
        c.past a ∧ a.id = id ∧ c.stored.get? id = some a) := by
    intro id a ha
    rcases hl.volatile id with hv | ⟨hv, ht, b, hb, hv'⟩
    · exact .inl (hv.symm.trans ha)
    · have hab : a = b := by simpa [ha] using hv'
      rw [hs] at hb
      subst hab
      exact .inr ⟨hv, ht, (hc.stored_past hb).1, (hc.stored_past hb).2, hb⟩
  have hrem : ∀ id, d'.draft.removed? id = d.draft.removed? id := fun id => by
    simp only [Draft.removed?, hl.tombstones]
  have hkeyed : d'.draft.Keyed := by
    refine h.keyed.filled (fun {id a} ha => ?_) hl.toFilled
    rw [hs] at ha
    exact ⟨(hc.stored_past ha).2, hc.clean (hc.stored_past ha).1⟩
  refine ⟨hkeyed.own, hkeyed.apart, ?_, ?_, ?_, ?_, ?_⟩
  · intro id a ha hclean
    rcases hcopy ha with ha | ⟨_, _, hp, _, _⟩
    · exact h.clean ha hclean
    · exact hp
  · intro id a ha hv
    rcases hcopy ha with ha | ⟨_, _, hp, hid, _⟩
    · exact h.based ha hv
    · exact ⟨a, hp, hid, rfl⟩
  · intro id a ha hv
    rcases hcopy ha with ha | ⟨_, _, hp, _, _⟩
    · exact h.born ha hv
    · exact absurd hv (hc.positive hp)
  · intro id v hv
    rw [hrem] at hv
    exact h.buried hv
  · intro id
    rw [← h.held id]
    unfold Draft.held
    rw [hrem]
    rcases hl.volatile id with hvol | ⟨hvol, ht, a, ha, hvol'⟩
    · rw [show d'.draft.copy? id = d.draft.copy? id from hvol]
    · rw [show d.draft.copy? id = none from hvol, show d'.draft.copy? id = some a from hvol',
        ← hs, ha]
      rfl

/-- Changing a copy without touching its identity and version. -/
theorem edit (h : Dated c d.draft) {id : ObjectId} {a b : Anchor} (ha : d.draft.copy? id = some a)
    (hid : b.id = a.id) (hv : b.version = a.version) (hd : b.dirty = true) :
    Dated c (d.keep id b).draft := by
  have hkeyed := h.keyed.keep (hid.trans (h.own ha)) (h.keyed.removed?_of_copy? ha)
  refine ⟨hkeyed.own, hkeyed.apart, ?_, ?_, ?_, h.buried, ?_⟩
  · intro j x hx hclean
    rw [Desk.keep_copy?] at hx
    split at hx
    · cases hx
      rw [hd] at hclean
      cases hclean
    · exact h.clean hx hclean
  · intro j x hx hz
    rw [Desk.keep_copy?] at hx
    split at hx
    · rename_i hj
      cases hx
      subst hj
      rw [hv] at hz ⊢
      exact h.based ha hz
    · exact h.based hx hz
  · intro j x hx hz
    rw [Desk.keep_copy?] at hx
    split at hx
    · rename_i hj
      cases hx
      subst hj
      rw [hv] at hz
      exact ⟨hd, (h.born ha hz).2⟩
    · exact h.born hx hz
  · intro j
    rw [← h.held j]
    unfold Draft.held
    rw [Desk.keep_removed?, Desk.keep_copy?]
    by_cases hj : j = id
    · subst hj
      simp [ha, hv]
    · rw [if_neg hj]

/-- Staging a new object. -/
theorem stage (hc : Chronicle c.past c.stored) {d : Draft} (h : Dated c d) {a : Anchor}
    (hz : a.version = 0) (hnew : ¬ c.Committed a.id) (hres : ¬ c.reserved a.id)
    (hm : ¬ d.Mentions a.id) : Dated c (d.stage a) := by
  have hcopy : d.copy? a.id = none := by
    cases hx : d.copy? a.id with
    | none => rfl
    | some x => exact absurd (.inl ⟨x, hx⟩) hm
  have hrem : d.removed? a.id = none := by
    cases hx : d.removed? a.id with
    | none => rfl
    | some x => exact absurd (.inr ⟨x, hx⟩) hm
  have hkeyed := h.keyed.stage a
  refine ⟨hkeyed.own, hkeyed.apart, ?_, ?_, ?_, ?_, ?_⟩
  · intro j x hx hclean
    rw [Draft.stage_copy?] at hx
    split at hx
    · cases hx
      cases hclean
    · exact h.clean hx hclean
  · intro j x hx hv
    rw [Draft.stage_copy?] at hx
    split at hx
    · cases hx
      exact absurd hz hv
    · exact h.based hx hv
  · intro j x hx hv
    rw [Draft.stage_copy?] at hx
    split at hx
    · rename_i hj
      cases hx
      subst hj
      exact ⟨rfl, hnew, hres⟩
    · exact h.born hx hv
  · intro j v hr
    rw [Draft.stage_removed?] at hr
    split at hr
    · cases hr
    · exact h.buried hr
  · intro j
    rw [← h.held j]
    unfold Draft.held
    rw [Draft.stage_removed?, Draft.stage_copy?]
    by_cases hj : j = a.id
    · simp [hj, hcopy, hrem, hc.stored_eq_none hnew, hz]
    · rw [if_neg hj, if_neg hj]

/-- Removing an object of which the draft has a copy. -/
theorem bury (hc : Chronicle c.past c.stored) (h : Dated c d.draft) {id : ObjectId}
    {a : Anchor} (ha : d.draft.copy? id = some a) : Dated c (d.bury id a).draft := by
  have hrem := h.keyed.removed?_of_copy? ha
  have hkeyed := h.keyed.bury id a
  refine ⟨hkeyed.own, hkeyed.apart, ?_, ?_, ?_, ?_, ?_⟩
  · intro j x hx hclean
    rw [Desk.bury_copy?] at hx
    split at hx
    · cases hx
    · exact h.clean hx hclean
  · intro j x hx hv
    rw [Desk.bury_copy?] at hx
    split at hx
    · cases hx
    · exact h.based hx hv
  · intro j x hx hv
    rw [Desk.bury_copy?] at hx
    split at hx
    · cases hx
    · exact h.born hx hv
  · intro j v hr
    rw [Desk.bury_removed?] at hr
    split at hr
    · rename_i hj
      obtain ⟨rfl, hv⟩ := hj
      cases hr
      exact ⟨hv, h.based ha hv⟩
    · exact h.buried hr
  · intro j
    rw [← h.held j]
    unfold Draft.held
    rw [Desk.bury_removed?, Desk.bury_copy?]
    by_cases hj : j = id
    · subst hj
      by_cases hv : a.version = 0
      · -- a new object leaves no trace, neither here nor in the vault
        simp [hv, hrem, ha, hc.stored_eq_none (h.born ha hv).2.1]
      · simp [hv, hrem, ha]
    · simp [hj]

end Dated

end Wayfarer
