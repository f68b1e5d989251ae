import Wayfarer.Desk
import Wayfarer.Vault

/-!
# Cache and vault

The cache never contradicts the vault below it: whatever it serves is what the
vault holds. The condition is `Shared.Agreed`; it speaks of entries that are
still live, because an expired entry may be stale and is never served.

* `Cache.Serves` states a property of everything a cache may serve, and
  `Cache.Serves.remember` how telling the cache something changes it.
* `Shared.Coherent.settle` says that the cache agrees again once it was told of
  a whole batch.
-/

namespace Wayfarer

namespace Cache

/-- Every anchor that the cache may serve has a property, given the version it
was noted at. -/
def Serves (c : Cache) (now : Instant) (P : ObjectId → Anchor → UInt64 → Prop) : Prop :=
  ∀ id e a, c.entries.get? id = some e → c.live now e = true → e.anchor = some a → P id a e.version

theorem live_of_le {c : Cache} {now later : Instant} {e : CacheEntry} (h : now ≤ later)
    (hl : c.live later e = true) : c.live now e = true := by
  simp only [live, decide_eq_true_eq] at hl ⊢
  exact Nat.lt_of_le_of_lt (Nat.sub_le_sub_right h _) hl

theorem Serves.later {c : Cache} {now later : Instant} {P : ObjectId → Anchor → UInt64 → Prop}
    (h : c.Serves now P) (hle : now ≤ later) : c.Serves later P := by
  intro id e a he hl ha
  exact h id e a he (live_of_le hle hl) ha

/-- Making room only takes entries away. -/
theorem get?_of_makeRoom {c : Cache} {now : Instant} {j : ObjectId} {e : CacheEntry}
    (h : (c.makeRoom now).get? j = some e) : c.entries.get? j = some e := by
  have hfresh : ∀ e, (c.entries.filter fun _ e => c.live now e).get? j = some e →
      c.entries.get? j = some e := by
    intro e he
    rw [Table.get?_filter] at he
    exact Option.eq_some_of_filter_eq_some he
  unfold makeRoom at h
  simp only at h
  split at h
  · split at h
    · rw [Table.get?_erase] at h
      split at h
      · cases h
      · exact hfresh e h
    · exact hfresh e h
  · exact hfresh e h

/-- What the cache holds after it was told something is new or was there before;
an old entry of the same object stays only if it says at least as much. -/
theorem get?_of_remember {c : Cache} {now : Instant} {id : ObjectId} {version : UInt64}
    {anchor : Option Anchor} {j : ObjectId} {e : CacheEntry}
    (h : (c.remember now id version anchor).entries.get? j = some e) :
    (j = id ∧ e = ⟨now, version, anchor⟩) ∨
      (c.entries.get? j = some e ∧
        (j = id → c.enabled = false ∨ c.supersedes now e version anchor = true)) := by
  unfold remember at h
  split at h
  · rename_i hoff
    exact .inr ⟨h, fun _ => .inl (by simpa using hoff)⟩
  · split at h
    · rename_i old hold
      split at h
      · rename_i hsup
        refine .inr ⟨h, fun hj => .inr ?_⟩
        subst hj
        rw [hold] at h
        cases h
        exact hsup
      · simp only [Table.get?_insert] at h
        split at h
        · rename_i hj
          exact .inl ⟨hj, by simpa using h.symm⟩
        · rename_i hj
          exact .inr ⟨h, fun hj' => absurd hj' hj⟩
    · simp only [Table.get?_insert] at h
      split at h
      · rename_i hj
        exact .inl ⟨hj, by simpa using h.symm⟩
      · rename_i hj
        refine .inr ⟨?_, fun hj' => absurd hj' hj⟩
        split at h
        · exact get?_of_makeRoom h
        · exact h

theorem remember_ttl (c : Cache) (now : Instant) (id : ObjectId) (version : UInt64)
    (anchor : Option Anchor) : (c.remember now id version anchor).ttl = c.ttl := by
  unfold remember
  repeat' split
  all_goals rfl

theorem remember_capacity (c : Cache) (now : Instant) (id : ObjectId) (version : UInt64)
    (anchor : Option Anchor) : (c.remember now id version anchor).capacity = c.capacity := by
  unfold remember
  repeat' split
  all_goals rfl

theorem remember_enabled (c : Cache) (now : Instant) (id : ObjectId) (version : UInt64)
    (anchor : Option Anchor) : (c.remember now id version anchor).enabled = c.enabled := by
  simp [enabled, remember_ttl, remember_capacity]

theorem remember_of_disabled {c : Cache} (h : c.enabled = false) (now : Instant) (id : ObjectId)
    (version : UInt64) (anchor : Option Anchor) : c.remember now id version anchor = c := by
  simp [remember, h]

/-- Telling an enabled cache of one object: other objects are served as before,
and this one as it was told, unless an entry that says more is kept. -/
theorem Serves.remember {c : Cache} {now later : Instant} {id : ObjectId} {version : UInt64}
    {anchor : Option Anchor} {P P' : ObjectId → Anchor → UInt64 → Prop} (h : c.Serves now P)
    (hon : c.enabled = true) (hle : now ≤ later)
    (hother : ∀ j a v, j ≠ id → P j a v → P' j a v)
    (hnew : ∀ a, anchor = some a → P' id a version)
    (hkept : ∀ a v, P id a v → version < v ∨ (v = version ∧ anchor.isSome = true) → P' id a v) :
    (c.remember now id version anchor).Serves later P' := by
  intro j e a he hl ha
  have hl' : c.live now e = true := by
    refine live_of_le hle ?_
    simpa [live, remember_ttl] using hl
  rcases get?_of_remember he with ⟨rfl, rfl⟩ | ⟨hold, hsup⟩
  · exact hnew a ha
  · have hP := h j e a hold hl' ha
    by_cases hj : j = id
    · subst hj
      rcases hsup rfl with hoff | hsup
      · rw [hon] at hoff
        cases hoff
      · refine hkept a e.version hP ?_
        simpa [supersedes, hl'] using hsup
    · exact hother j a e.version hj hP

end Cache

namespace Shared

variable {σ : Type}

/-- The cache serves nothing but certain contents of the tier below it. A cache
that is switched off is empty. -/
structure Coherent (s : Shared σ) (content : Table ObjectId Anchor) : Prop where
  idle : s.cache.enabled = false → ∀ id, s.cache.entries.get? id = none
  served : s.cache.Serves s.now fun id a v => content.get? id = some a ∧ v = a.version

theorem clean_of_not_dirty {a : Anchor} (h : a.dirty = false) : a.clean = a := by
  cases a
  simp_all [Anchor.clean]

namespace Coherent

variable {s : Shared σ} {content : Table ObjectId Anchor}

theorem get? (h : s.Coherent content) {id : ObjectId} {a : Anchor}
    (hc : s.cache.get? s.now id = some a) : content.get? id = some a := by
  unfold Cache.get? at hc
  split at hc
  · cases hc
  · rename_i e he
    split at hc
    · rename_i hl
      exact (h.served id e a he hl hc).1
    · cases hc

/-- Coherence is about the cache and the clock alone. -/
theorem congr (h : s.Coherent content) {s' : Shared σ} (hc : s'.cache = s.cache)
    (hn : s'.now = s.now) : s'.Coherent content :=
  ⟨hc ▸ h.idle, hc ▸ hn ▸ h.served⟩

/-- Time that passes cannot break coherence. -/
theorem later (h : s.Coherent content) {s' : Shared σ} (hc : s'.cache = s.cache)
    (hle : s.now ≤ s'.now) : s'.Coherent content :=
  ⟨hc ▸ h.idle, hc ▸ h.served.later hle⟩

/-- Reading an anchor into the cache keeps coherence. -/
theorem remember (h : s.Coherent content) {a : Anchor} (ha : content.get? a.id = some a)
    (hclean : a.dirty = false) : (s.remember a).Coherent content := by
  have hca := clean_of_not_dirty hclean
  by_cases hon : s.cache.enabled = true
  · refine ⟨?_, ?_⟩
    · intro hoff
      simp only [Shared.remember, Cache.put, Cache.remember_enabled] at hoff
      rw [hon] at hoff
      cases hoff
    · refine h.served.remember hon (Nat.le_succ _) (fun _ _ _ _ hP => hP) ?_ fun _ _ hP _ => hP
      intro b hb
      rw [hca] at hb
      cases hb
      exact ⟨ha, rfl⟩
  · have hoff : s.cache.enabled = false := by simpa using hon
    exact h.later (Cache.remember_of_disabled hoff _ _ _ _) (Nat.le_succ _)

/-- A cache that was emptied is coherent. -/
theorem of_empty {s : Shared σ} (h : s.cache.entries = Table.empty) : s.Coherent content :=
  ⟨fun _ id => by rw [h]; rfl, fun id e a he => by rw [h] at he; cases he⟩

end Coherent

/-! ## Telling the cache of a batch -/

section Settle

variable {old new : Table ObjectId Anchor}

/-- What the cache may serve while it is being told of a batch: the new
contents, or for objects it has not been told of yet the old ones. -/
def Outdated (old new : Table ObjectId Anchor) (due : ObjectId → Prop) (id : ObjectId) (a : Anchor)
    (v : UInt64) : Prop :=
  v = a.version ∧ (new.get? id = some a ∨ (due id ∧ old.get? id = some a))

theorem serves_writes {s : Shared σ} {writes : List Anchor} {due : ObjectId → Prop}
    (hon : s.cache.enabled = true)
    (hnew : ∀ w ∈ writes, w.dirty = false ∧ new.get? w.id = some w)
    (hgrow : ∀ w ∈ writes, ∀ a, old.get? w.id = some a → a.version < w.version)
    (h : s.cache.Serves s.now (Outdated old new fun id => (∃ w ∈ writes, w.id = id) ∨ due id)) :
    (writes.foldl Shared.remember s).cache.enabled = true ∧
      (writes.foldl Shared.remember s).cache.Serves (writes.foldl Shared.remember s).now
        (Outdated old new due) := by
  induction writes generalizing s with
  | nil => exact ⟨hon, by simpa using h⟩
  | cons w rest ih =>
    obtain ⟨hclean, hw⟩ := hnew w (by simp)
    refine ih (by simpa [Shared.remember, Cache.put, Cache.remember_enabled] using hon)
      (fun w' hw' => hnew w' (by simp [hw'])) (fun w' hw' => hgrow w' (by simp [hw'])) ?_
    refine h.remember hon (Nat.le_succ _) ?_ ?_ ?_
    · rintro j a v hj ⟨hv, hl | ⟨hdue, ho⟩⟩
      · exact ⟨hv, .inl hl⟩
      · refine ⟨hv, .inr ⟨?_, ho⟩⟩
        rcases hdue with ⟨w', hw', hid⟩ | hdue
        · rcases List.mem_cons.1 hw' with rfl | hw'
          · exact absurd hid.symm hj
          · exact .inl ⟨w', hw', hid⟩
        · exact .inr hdue
    · intro a ha
      rw [clean_of_not_dirty hclean] at ha
      cases ha
      exact ⟨rfl, .inl hw⟩
    · rintro a v ⟨hv, hl | ⟨_, ho⟩⟩ hlt
      · exact ⟨hv, .inl hl⟩
      · -- an entry of the replaced content is older than the batch
        have hgt := hgrow w (by simp) a ho
        rw [← hv] at hgt
        rcases hlt with hlt | ⟨heq, _⟩
        · exact absurd hlt (UInt64.not_lt.2 (UInt64.le_of_lt hgt))
        · rw [heq] at hgt
          exact absurd hgt (UInt64.lt_irrefl _)

theorem serves_deletes {s : Shared σ} {deletes : List (ObjectId × UInt64)}
    (hon : s.cache.enabled = true)
    (hnew : ∀ d ∈ deletes, new.get? d.1 = none)
    (hold : ∀ d ∈ deletes, ∀ a, old.get? d.1 = some a → a.version ≤ d.2)
    (h : s.cache.Serves s.now (Outdated old new fun id => ∃ d ∈ deletes, d.1 = id)) :
    (deletes.foldl (fun s d => s.forget d.1 d.2) s).cache.enabled = true ∧
      (deletes.foldl (fun s d => s.forget d.1 d.2) s).cache.Serves
        (deletes.foldl (fun s d => s.forget d.1 d.2) s).now (Outdated old new fun _ => False) := by
  induction deletes generalizing s with
  | nil => exact ⟨hon, by simpa using h⟩
  | cons d rest ih =>
    refine ih (s := s.forget d.1 d.2)
      (by simpa [Shared.forget, Cache.invalidate, Cache.remember_enabled] using hon)
      (fun d' hd' => hnew d' (by simp [hd'])) (fun d' hd' => hold d' (by simp [hd'])) ?_
    refine h.remember hon (Nat.le_succ _) ?_ (fun a ha => by cases ha) ?_
    · rintro j a v hj ⟨hv, hl | ⟨⟨d', hd', hid⟩, ho⟩⟩
      · exact ⟨hv, .inl hl⟩
      · refine ⟨hv, .inr ⟨?_, ho⟩⟩
        rcases List.mem_cons.1 hd' with rfl | hd'
        · exact absurd hid.symm hj
        · exact ⟨d', hd', hid⟩
    · rintro a v ⟨hv, hl | ⟨_, ho⟩⟩ hlt
      · rw [hnew d (by simp)] at hl
        cases hl
      · have hle := hold d (by simp) a ho
        rw [← hv] at hle
        rcases hlt with hlt | ⟨_, hsome⟩
        · exact absurd hlt (UInt64.not_lt.2 hle)
        · cases hsome

theorem foldl_remember_durable (writes : List Anchor) (s : Shared σ) :
    (writes.foldl Shared.remember s).durable = s.durable := by
  induction writes generalizing s with
  | nil => rfl
  | cons w rest ih => exact ih (s.remember w)

theorem foldl_forget_durable (deletes : List (ObjectId × UInt64)) (s : Shared σ) :
    (deletes.foldl (fun s d => s.forget d.1 d.2) s).durable = s.durable := by
  induction deletes generalizing s with
  | nil => rfl
  | cons d rest ih => exact ih (s.forget d.1 d.2)

theorem foldl_remember_mint (writes : List Anchor) (s : Shared σ) :
    (writes.foldl Shared.remember s).mint = s.mint := by
  induction writes generalizing s with
  | nil => rfl
  | cons w rest ih => exact ih (s.remember w)

theorem foldl_forget_mint (deletes : List (ObjectId × UInt64)) (s : Shared σ) :
    (deletes.foldl (fun s d => s.forget d.1 d.2) s).mint = s.mint := by
  induction deletes generalizing s with
  | nil => rfl
  | cons d rest ih => exact ih (s.forget d.1 d.2)

@[simp] theorem settle_durable (s : Shared σ) (batch : Batch) :
    (s.settle batch).durable = s.durable := by
  rw [settle, foldl_forget_durable, foldl_remember_durable]

@[simp] theorem settle_mint (s : Shared σ) (batch : Batch) :
    (s.settle batch).mint = s.mint := by
  rw [settle, foldl_forget_mint, foldl_remember_mint]

theorem foldl_remember_disabled {s : Shared σ} (h : s.cache.enabled = false)
    (writes : List Anchor) : (writes.foldl Shared.remember s).cache = s.cache := by
  induction writes generalizing s with
  | nil => rfl
  | cons w rest ih =>
    have hw : (s.remember w).cache = s.cache := Cache.remember_of_disabled h _ _ _ _
    exact (ih (s := s.remember w) (hw ▸ h)).trans hw

theorem foldl_forget_disabled {s : Shared σ} (h : s.cache.enabled = false)
    (deletes : List (ObjectId × UInt64)) :
    (deletes.foldl (fun s d => s.forget d.1 d.2) s).cache = s.cache := by
  induction deletes generalizing s with
  | nil => rfl
  | cons d rest ih =>
    have hd : (s.forget d.1 d.2).cache = s.cache := Cache.remember_of_disabled h _ _ _ _
    exact (ih (s := s.forget d.1 d.2) (hd ▸ h)).trans hd

/-- Once the tier below holds the contents after a batch and the cache was told
of the batch, they agree again, provided that every write is newer than what it
replaces and every removal at least as new as what it removes. -/
theorem Coherent.settle {s : Shared σ} (h : s.Coherent old) {batch : Batch}
    (hsame : ∀ id, (∀ w ∈ batch.writes, w.id ≠ id) → (∀ d ∈ batch.deletes, d.1 ≠ id) →
      new.get? id = old.get? id)
    (hwrite : ∀ w ∈ batch.writes, w.dirty = false ∧ new.get? w.id = some w)
    (hgrow : ∀ w ∈ batch.writes, ∀ a, old.get? w.id = some a → a.version < w.version)
    (hdelete : ∀ d ∈ batch.deletes, new.get? d.1 = none)
    (hlast : ∀ d ∈ batch.deletes, ∀ a, old.get? d.1 = some a → a.version ≤ d.2) :
    (s.settle batch).Coherent new := by
  by_cases hon : s.cache.enabled = true
  -- at first every object of the batch is due: its entry may be outdated, but by known
  -- content only
  · have hstart : s.cache.Serves s.now (Outdated old new fun id =>
        (∃ w ∈ batch.writes, w.id = id) ∨ ∃ d ∈ batch.deletes, d.1 = id) := by
      intro id e a he hl ha
      obtain ⟨hs, hv⟩ := h.served id e a he hl ha
      refine ⟨hv, ?_⟩
      by_cases hdue : (∃ w ∈ batch.writes, w.id = id) ∨ ∃ d ∈ batch.deletes, d.1 = id
      · exact .inr ⟨hdue, hs⟩
      · rw [not_or] at hdue
        refine .inl ?_
        rw [hsame id (fun w hw hid => hdue.1 ⟨w, hw, hid⟩) fun d hd hid => hdue.2 ⟨d, hd, hid⟩]
        exact hs
    obtain ⟨hon', hmid⟩ := serves_writes hon hwrite hgrow hstart
    obtain ⟨hon'', hend⟩ := serves_deletes hon' hdelete hlast hmid
    refine ⟨?_, ?_⟩
    · intro hoff
      rw [Shared.settle, hon''] at hoff
      cases hoff
    · intro id e a he hl ha
      obtain ⟨hv, hn | ⟨hf, _⟩⟩ := hend id e a he hl ha
      · exact ⟨hn, hv⟩
      · exact hf.elim
  -- a cache that is switched off stays empty
  · have hoff : s.cache.enabled = false := by simpa using hon
    have hcache : (s.settle batch).cache = s.cache := by
      have hmid := foldl_remember_disabled hoff batch.writes
      rw [Shared.settle, foldl_forget_disabled (by rw [hmid]; exact hoff), hmid]
    refine ⟨?_, ?_⟩
    · rw [hcache]
      exact h.idle
    · intro id e a he
      rw [hcache, h.idle hoff id] at he
      cases he

end Settle

/-! ## Over a vault -/

/-- The anchors of the vault below. -/
abbrev stored (s : Shared Vault) : Table ObjectId Anchor := s.durable.anchors

/-- The vault keeps clean anchors under their own identities, and the cache
above it serves nothing but what the vault holds. A cache that is switched off
is empty. -/
structure Agreed (s : Shared Vault) : Prop where
  tidy : ∀ {id a}, s.stored.get? id = some a → a.id = id ∧ a.dirty = false
  idle : s.cache.enabled = false → ∀ id, s.cache.entries.get? id = none
  served : s.cache.Serves s.now fun id a v => s.stored.get? id = some a ∧ v = a.version

namespace Agreed

variable {s : Shared Vault}

theorem coherent (h : s.Agreed) : s.Coherent s.stored := ⟨h.idle, h.served⟩

theorem of_coherent (htidy : ∀ {id a}, s.stored.get? id = some a → a.id = id ∧ a.dirty = false)
    (h : s.Coherent s.stored) : s.Agreed := ⟨htidy, h.idle, h.served⟩

/-- Time that passes cannot break the agreement. -/
theorem later (h : s.Agreed) {now : Instant} (hle : s.now ≤ now) :
    Agreed { s with now := now } :=
  ⟨h.tidy, h.idle, h.served.later hle⟩

theorem sleep (h : s.Agreed) (millis : Nat) : (s.sleep millis).Agreed :=
  h.later (Nat.le_add_right s.now (millis * ticksPerMilli))

end Agreed

end Shared

end Wayfarer
