import Wayfarer.Proofs.Sound

/-!
# Committing a draft

A batch passes its check exactly if every object that awaits the commit is
stored at the version at which the request holds it (`Draft.Keyed.check_iff`).
Such an object is then stored just as it was when the request's copy was made
(`Dated.stored_of_current`), and that is why a whole vault stays whole: the
changes of the draft fit together, and they are made to the contents that they
were meant for (`Whole.commit`).
-/

namespace Wayfarer

/-- A changed anchor as a commit stores it. -/
def Anchor.committed (a : Anchor) : Anchor := { a with version := a.version + 1, dirty := false }

@[simp] theorem Anchor.committed_id (a : Anchor) : a.committed.id = a.id := rfl
@[simp] theorem Anchor.committed_version (a : Anchor) : a.committed.version = a.version + 1 := rfl
@[simp] theorem Anchor.committed_type (a : Anchor) : a.committed.type = a.type := rfl
@[simp] theorem Anchor.committed_node? (a : Anchor) : a.committed.node? = a.node? := rfl
@[simp] theorem Anchor.committed_edge? (a : Anchor) : a.committed.edge? = a.edge? := rfl

/-- Every object that awaits the commit of a draft is stored at the version at
which the request holds it; what is not stored counts as version zero. -/
def Draft.Current (d : Draft) (stored : Table ObjectId Anchor) : Prop :=
  ∀ id, d.Pending id → ((stored.get? id).map (·.version)).getD 0 = d.held stored id

/-- None of the copies in a draft has used up the versions there are. -/
def Draft.Roomy (d : Draft) : Prop := ∀ a ∈ d.volatile.values, a.version + 1 ≠ 0

instance (d : Draft) : Decidable d.Roomy :=
  inferInstanceAs (Decidable (∀ a ∈ d.volatile.values, a.version + 1 ≠ 0))

/-- None of the changes in a draft has used up the versions there are. -/
def Draft.Spare (d : Draft) : Prop := ∀ a ∈ d.volatile.values, a.dirty = true → a.version + 1 ≠ 0

instance (d : Draft) : Decidable d.Spare :=
  inferInstanceAs (Decidable (∀ a ∈ d.volatile.values, a.dirty = true → a.version + 1 ≠ 0))

theorem Draft.Roomy.spare {d : Draft} (h : d.Roomy) : d.Spare := fun a ha _ => h a ha

variable {c c' : Setting} {d : Draft} {id : ObjectId} {a b : Anchor}

namespace Draft

theorem mem_writes {w : Anchor} :
    w ∈ d.writes ↔ ∃ id a, d.copy? id = some a ∧ a.dirty = true ∧ w = a.committed := by
  unfold writes
  rw [List.mem_map]
  constructor
  · rintro ⟨a, ha, rfl⟩
    obtain ⟨hmem, hdirty⟩ := List.mem_filter.1 ha
    obtain ⟨id, hcopy⟩ := Table.mem_values.1 hmem
    exact ⟨id, a, hcopy, hdirty, rfl⟩
  · rintro ⟨id, a, hcopy, hdirty, rfl⟩
    exact ⟨a, List.mem_filter.2 ⟨Table.mem_values.2 ⟨id, hcopy⟩, hdirty⟩, rfl⟩

theorem mem_deletes {v : UInt64} : (id, v) ∈ d.batch.deletes ↔ d.removed? id = some v :=
  Table.mem_toList

theorem held_of_removed {stored : Table ObjectId Anchor} {v : UInt64}
    (h : d.removed? id = some v) : d.held stored id = v := by
  simp [held, h]

end Draft

/-! ## Versions -/

theorem UInt64.lt_add_one {v : UInt64} (h : v + 1 ≠ 0) : v < v + 1 := by
  have hne : (v + 1).toNat ≠ 0 := fun hz => h (UInt64.toNat_inj.1 hz)
  have hlt := v.toNat_lt
  rw [UInt64.toNat_add] at hne
  rw [UInt64.lt_iff_toNat_lt, UInt64.toNat_add]
  simp only [UInt64.reduceToNat] at hne ⊢
  omega

theorem UInt64.add_one_ne_zero {v : UInt64} (h : v.toNat + 1 < UInt64.size) : v + 1 ≠ 0 := by
  intro hover
  have hzero : (v + 1).toNat = 0 := by rw [hover]; rfl
  have hsize : UInt64.size = 2 ^ 64 := rfl
  rw [UInt64.toNat_add, UInt64.toNat_one] at hzero
  omega

/-! ## The check -/

theorem expected_succ {v : UInt64} (h : v + 1 ≠ 0) : Batch.expected (v + 1) = v := by
  rw [Batch.expected, if_neg h]
  exact UInt64.add_sub_cancel v 1

namespace Draft.Keyed

variable {stored : Table ObjectId Anchor}

theorem held_of_copy (h : d.Keyed) (ha : d.copy? id = some a) : d.held stored id = a.version := by
  simp [Draft.held, ha, h.removed?_of_copy? ha]

theorem mem_expectations (h : d.Keyed) (hspare : d.Spare) {want : UInt64} :
    (id, want) ∈ d.batch.expectations ↔ d.Pending id ∧ want = d.held stored id := by
  have hnext : ∀ {j x}, d.copy? j = some x → x.dirty = true → x.version + 1 ≠ 0 := fun hx =>
    hspare _ (Table.mem_values.2 ⟨_, hx⟩)
  unfold Batch.expectations
  rw [List.mem_append, Draft.mem_deletes, List.mem_map]
  constructor
  · rintro (⟨w, hw, heq⟩ | hrem)
    · obtain ⟨j, a, ha, hdirty, rfl⟩ := Draft.mem_writes.1 hw
      rw [Anchor.committed_version, expected_succ (hnext ha hdirty), Anchor.committed_id,
        h.own ha] at heq
      cases heq
      exact ⟨.inl ⟨a, ha, hdirty⟩, (h.held_of_copy ha).symm⟩
    · exact ⟨.inr ⟨want, hrem⟩, (Draft.held_of_removed hrem).symm⟩
  · rintro ⟨⟨a, ha, hdirty⟩ | ⟨v, hrem⟩, rfl⟩
    · refine .inl ⟨a.committed, Draft.mem_writes.2 ⟨id, a, ha, hdirty, rfl⟩, ?_⟩
      rw [Anchor.committed_version, expected_succ (hnext ha hdirty), Anchor.committed_id, h.own ha,
        h.held_of_copy ha]
    · refine .inr ?_
      rw [Draft.held_of_removed hrem]
      exact hrem

end Draft.Keyed

theorem Batch.conflict?_eq_none {current : ObjectId → Option UInt64}
    {l : List (ObjectId × UInt64)} :
    Batch.conflict? current l = none ↔ ∀ id want, (id, want) ∈ l → (current id).getD 0 = want := by
  induction l with
  | nil => simp [Batch.conflict?]
  | cons head rest ih =>
    obtain ⟨j, v⟩ := head
    unfold Batch.conflict?
    simp only
    split
    · rename_i heq
      rw [ih]
      constructor
      · intro h id want hmem
        rcases List.mem_cons.1 hmem with hx | hx
        · cases hx
          exact heq
        · exact h id want hx
      · exact fun h id want hmem => h id want (List.mem_cons_of_mem _ hmem)
    · rename_i hne
      constructor
      · intro hn
        cases hn
      · exact fun h => absurd (h j v (List.mem_cons_self ..)) hne

/-- A check can only fail with a conflict. -/
theorem Batch.conflict?_isConflict {current : ObjectId → Option UInt64}
    {l : List (ObjectId × UInt64)} {e : Error} (h : Batch.conflict? current l = some e) :
    e.isConflict = true := by
  induction l with
  | nil => cases h
  | cons head rest ih =>
    obtain ⟨j, v⟩ := head
    unfold Batch.conflict? at h
    simp only at h
    split at h
    · exact ih h
    · cases h
      rfl

/-- A batch passes its check exactly if the draft is current. -/
theorem Draft.Keyed.check_iff (h : d.Keyed) (hspare : d.Spare) (stored : Table ObjectId Anchor) :
    Batch.conflict? (fun id => (stored.get? id).map (·.version)) d.batch.expectations = none ↔
      d.Current stored := by
  rw [Batch.conflict?_eq_none]
  constructor
  · intro hall id hp
    exact hall id _ ((h.mem_expectations hspare).2 ⟨hp, rfl⟩)
  · intro hcur id want hmem
    have hmem : d.Pending id ∧ want = d.held stored id := (h.mem_expectations hspare).1 hmem
    rw [hmem.2]
    exact hcur id hmem.1

/-- A changed anchor is committed over one of the version that its copy has. -/
theorem Draft.Keyed.version_of_dirty (h : d.Keyed) {stored : Table ObjectId Anchor}
    (hcur : d.Current stored) (ha : d.copy? id = some a) (hd : a.dirty = true)
    (hb : stored.get? id = some b) : b.version = a.version := by
  have hver := hcur id (.inl ⟨a, ha, hd⟩)
  rwa [hb, h.held_of_copy ha] at hver

/-- An object is removed at the version at which it is stored. -/
theorem Draft.Current.version_of_removed {stored : Table ObjectId Anchor} (hcur : d.Current stored)
    {v : UInt64} (hv : d.removed? id = some v) (hb : stored.get? id = some b) : b.version = v := by
  have hver := hcur id (.inr ⟨v, hv⟩)
  rwa [hb, Draft.held_of_removed hv] at hver

namespace Dated

/-- The version after the one at which a request holds an object is not zero
again. -/
theorem roomy (hc : Chronicle c.past c.stored) (h : Dated c d) (ha : d.copy? id = some a) :
    a.version + 1 ≠ 0 := by
  by_cases hz : a.version = 0
  · rw [hz]
    decide
  · obtain ⟨p, hp, _, hv⟩ := h.based ha hz
    rw [← hv]
    exact hc.roomy hp

theorem spacious (hc : Chronicle c.past c.stored) (h : Dated c d) : d.Roomy := by
  intro a ha
  obtain ⟨id, hcopy⟩ := Table.mem_values.1 ha
  exact h.roomy hc hcopy

end Dated

/-! ## What is stored afterwards -/

section Overlay

variable {t : Table ObjectId Anchor}

theorem Vault.get?_writes {writes : List Anchor}
    (huniq : ∀ w ∈ writes, ∀ w' ∈ writes, w.id = w'.id → w = w') :
    (∀ w ∈ writes, (writes.foldl (fun t a => t.insert a.id a.clean) t).get? w.id = some w.clean) ∧
      ∀ id, (∀ w ∈ writes, w.id ≠ id) →
        (writes.foldl (fun t a => t.insert a.id a.clean) t).get? id = t.get? id := by
  induction writes generalizing t with
  | nil => exact ⟨fun _ hw => (List.not_mem_nil hw).elim, fun _ _ => rfl⟩
  | cons x rest ih =>
    obtain ⟨hin, hout⟩ := ih (t := t.insert x.id x.clean)
      fun w hw w' hw' => huniq w (List.mem_cons_of_mem _ hw) w' (List.mem_cons_of_mem _ hw')
    refine ⟨fun w hw => ?_, fun id hid => ?_⟩
    · by_cases hlater : ∃ w' ∈ rest, w'.id = w.id
      · obtain ⟨w', hw', hid⟩ := hlater
        have heq := huniq w' (List.mem_cons_of_mem _ hw') w hw hid
        subst heq
        exact hin w' hw'
      · rw [List.foldl_cons, hout w.id fun w' hw' hid => hlater ⟨w', hw', hid⟩]
        rcases List.mem_cons.1 hw with rfl | hw
        · rw [Table.get?_insert, if_pos rfl]
        · exact absurd ⟨w, hw, rfl⟩ hlater
    · rw [List.foldl_cons, hout id fun w hw => hid w (List.mem_cons_of_mem _ hw),
        Table.get?_insert, if_neg fun heq => hid x (List.mem_cons_self ..) heq.symm]

theorem Vault.get?_deletes {deletes : List (ObjectId × UInt64)} (id : ObjectId) :
    (deletes.foldl (fun t d => t.erase d.1) t).get? id =
      if ∃ d ∈ deletes, d.1 = id then none else t.get? id := by
  induction deletes generalizing t with
  | nil => simp
  | cons x rest ih =>
    rw [List.foldl_cons, ih, Table.get?_erase]
    by_cases hx : id = x.1
    · simp [hx]
    · have hiff : (∃ d ∈ x :: rest, d.1 = id) ↔ ∃ d ∈ rest, d.1 = id := by
        simp [Ne.symm hx]
      simp only [hx, if_false, hiff]

end Overlay

section Keyed

variable {t : Table ObjectId Anchor}

theorem Draft.overlay_of_removed {v : UInt64} (hr : d.removed? id = some v) :
    (Vault.overlay t d.batch).get? id = none := by
  unfold Vault.overlay
  simp only
  rw [Vault.get?_deletes, if_pos ⟨(id, v), Draft.mem_deletes.2 hr, rfl⟩]

theorem Draft.not_deleted (hr : d.removed? id = none) : ¬ ∃ x ∈ d.batch.deletes, x.1 = id := by
  rintro ⟨⟨j, v⟩, hx, rfl⟩
  rw [Draft.mem_deletes.1 hx] at hr
  cases hr

namespace Draft.Keyed

theorem own_committed (h : d.Keyed) (ha : d.copy? id = some a) : a.committed.id = id :=
  h.own (a := a) ha

theorem unique_writes (h : d.Keyed) :
    ∀ w ∈ d.writes, ∀ w' ∈ d.writes, w.id = w'.id → w = w' := by
  intro w hw w' hw' hid
  obtain ⟨i, a, ha, _, rfl⟩ := Draft.mem_writes.1 hw
  obtain ⟨j, b, hb, _, rfl⟩ := Draft.mem_writes.1 hw'
  rw [Anchor.committed_id, Anchor.committed_id, h.own ha, h.own hb] at hid
  rw [hid, hb] at ha
  cases ha
  rfl

theorem overlay_of_dirty (h : d.Keyed) (ha : d.copy? id = some a) (hd : a.dirty = true) :
    (Vault.overlay t d.batch).get? id = some a.committed := by
  have hw : a.committed ∈ d.writes := Draft.mem_writes.2 ⟨id, a, ha, hd, rfl⟩
  unfold Vault.overlay
  simp only
  rw [Vault.get?_deletes, if_neg (Draft.not_deleted (h.removed?_of_copy? ha))]
  have hget := (Vault.get?_writes (t := t) h.unique_writes).1 _ hw
  rw [Anchor.committed_id, h.own ha] at hget
  exact hget

theorem overlay_of_idle (h : d.Keyed) (hp : ¬ d.Pending id) :
    (Vault.overlay t d.batch).get? id = t.get? id := by
  have hr : d.removed? id = none := by
    cases hx : d.removed? id with
    | none => rfl
    | some v => exact absurd (.inr ⟨v, hx⟩) hp
  unfold Vault.overlay
  simp only
  rw [Vault.get?_deletes, if_neg (Draft.not_deleted hr)]
  refine (Vault.get?_writes (t := t) h.unique_writes).2 id fun w hw hid => hp ?_
  obtain ⟨j, a, ha, hd, rfl⟩ := Draft.mem_writes.1 hw
  rw [Anchor.committed_id, h.own ha] at hid
  exact .inl ⟨a, hid ▸ ha, hd⟩

/-- What is stored after a commit was written by it or was stored before. -/
theorem of_overlay (h : d.Keyed) (hb : (Vault.overlay t d.batch).get? id = some b) :
    (∃ a, d.copy? id = some a ∧ a.dirty = true ∧ b = a.committed) ∨
      (¬ d.Pending id ∧ t.get? id = some b) := by
  by_cases hp : d.Pending id
  · rcases hp with ⟨a, ha, hd⟩ | ⟨v, hv⟩
    · rw [h.overlay_of_dirty ha hd] at hb
      cases hb
      exact .inl ⟨a, ha, hd, rfl⟩
    · rw [overlay_of_removed hv] at hb
      cases hb
  · rw [h.overlay_of_idle hp] at hb
    exact .inr ⟨hp, hb⟩

/-- What is stored after a commit is clean and kept under its own identity, as
it was before. -/
theorem tidy_overlay (h : d.Keyed)
    (htidy : ∀ {id a}, t.get? id = some a → a.id = id ∧ a.dirty = false)
    (hb : (Vault.overlay t d.batch).get? id = some b) : b.id = id ∧ b.dirty = false := by
  rcases h.of_overlay hb with ⟨a, ha, _, rfl⟩ | ⟨_, hold⟩
  · exact ⟨h.own_committed ha, rfl⟩
  · exact htidy hold

/-- Telling the cache of a commit makes it coherent with what is stored
afterwards, if the commit writes newer versions than there were and removes no
newer ones than it knows. -/
theorem coherent_settle {σ : Type} {s : Shared σ} (h : d.Keyed) (hs : s.Coherent t)
    (hnewer : ∀ {id a p}, d.copy? id = some a → a.dirty = true → t.get? id = some p →
      p.version < a.version + 1)
    (hlast : ∀ {id v p}, d.removed? id = some v → t.get? id = some p → p.version ≤ v) :
    (s.settle d.batch).Coherent (Vault.overlay t d.batch) := by
  refine hs.settle ?_ ?_ ?_ ?_ ?_
  · intro id hw hdel
    refine h.overlay_of_idle ?_
    rintro (⟨a, ha, hdirty⟩ | ⟨v, hv⟩)
    · exact hw _ (Draft.mem_writes.2 ⟨id, a, ha, hdirty, rfl⟩) (h.own_committed ha)
    · exact hdel (id, v) (Draft.mem_deletes.2 hv) rfl
  · intro w hw
    obtain ⟨id, a, ha, hdirty, rfl⟩ := Draft.mem_writes.1 hw
    rw [h.own_committed ha]
    exact ⟨rfl, h.overlay_of_dirty ha hdirty⟩
  · intro w hw p hp
    obtain ⟨id, a, ha, hdirty, rfl⟩ := Draft.mem_writes.1 hw
    rw [h.own_committed ha] at hp
    exact hnewer ha hdirty hp
  · rintro ⟨id, v⟩ hdel
    exact overlay_of_removed (Draft.mem_deletes.1 hdel)
  · rintro ⟨id, v⟩ hdel p hp
    exact hlast (Draft.mem_deletes.1 hdel) hp

end Draft.Keyed

end Keyed

namespace Dated

/-- An object that was committed before and awaits a commit in a current draft
is stored just as it was when the request got hold of it. -/
theorem stored_of_current (hc : Chronicle c.past c.stored) (hcur : d.Current c.stored)
    (hp : d.Pending id) {p : Anchor} (hpast : c.past p) (hid : p.id = id)
    (hv : p.version = d.held c.stored id) : c.stored.get? id = some p := by
  have hver := hcur id hp
  rw [← hv] at hver
  cases hst : c.stored.get? id with
  | none =>
    rw [hst] at hver
    exact absurd hver.symm (hc.positive hpast)
  | some a =>
    rw [hst] at hver
    rw [hc.stored_of_held hpast hid hst hver]

/-- The changed copy of a stored object was made from what is stored. -/
theorem base_of_dirty (hc : Chronicle c.past c.stored) (h : Dated c d) (hcur : d.Current c.stored)
    (ha : d.copy? id = some a) (hd : a.dirty = true) (hz : a.version ≠ 0) :
    ∃ p, c.stored.get? id = some p ∧ p.version = a.version := by
  obtain ⟨p, hp, hid, hv⟩ := h.based ha hz
  refine ⟨p, stored_of_current hc hcur (.inl ⟨a, ha, hd⟩) hp hid ?_, hv⟩
  rw [h.keyed.held_of_copy ha, hv]

/-- A removed object was stored at the version at which it was removed. -/
theorem base_of_removed (hc : Chronicle c.past c.stored) (h : Dated c d) (hcur : d.Current c.stored)
    {v : UInt64} (hr : d.removed? id = some v) :
    ∃ p, c.stored.get? id = some p ∧ p.version = v := by
  obtain ⟨_, p, hp, hid, hv⟩ := h.buried hr
  refine ⟨p, stored_of_current hc hcur (.inr ⟨v, hr⟩) hp hid ?_, hv⟩
  rw [Draft.held_of_removed hr, hv]

end Dated

end Wayfarer
