import Wayfarer.Proofs.Commit.Drafts
import Wayfarer.Proofs.Pruning
import Wayfarer.Proofs.Tenancy.Journal

/-!
# What is held

A request holds copies of anchors, the cache holds some, and the durable tier
the rest. `Holdings` is a property of anchors with the durable tiers in which
all anchors have it. A desk all of whose anchors have it stays so when anchors
are loaded (`Holdings.browses`) and when others that have it are put in.
-/

namespace Wayfarer

/-! ## Loading -/

section Loading

variable {σ : Type} [Durable σ]

/-- A condition to which counts of reads do not matter, which holds still when
the durable tier was asked, and which lets in what the cache or the durable tier
has of an object that was not removed. -/
structure Desk.Draws (I : Desk σ → Prop) : Prop where
  counted : ∀ {d} (f : Stats → Stats), I d → I (d.count f)
  asked : ∀ {d} id, I d →
    I { d with shared := { d.shared with durable := endOf (Durable.fetch id) d.shared.durable } }
  cached : ∀ {d id e a}, I d → d.draft.removed? id = none →
    d.shared.cache.entries.get? id = some e → e.anchor = some a → I (d.keep id a)
  fetched : ∀ {d id a s}, I d → d.draft.removed? id = none →
    Durable.fetch id d.shared.durable = .ok (some a) s →
      I ⟨(d.keep id a.clean).draft, ({ d.shared with durable := s } : Shared σ).remember a.clean⟩

namespace Desk.Draws

variable {I : Desk σ → Prop} {d : Desk σ} {id : ObjectId}

theorem fetch (h : Draws I) (hd : I d) (hr : d.draft.removed? id = none) :
    Work.Ends (Desk.fetch id) d (fun _ => I) fun _ => I := by
  refine .bind (.modify (.bind ?_))
  have hcount := h.counted (fun s => { s with durableReads := s.durableReads + 1 }) hd
  have hasked := h.asked id hcount
  unfold endOf at hasked
  cases hfetch : Durable.fetch id d.shared.durable with
  | error e s =>
    rw [show Durable.fetch id (d.count _).shared.durable = _ from hfetch] at hasked
    exact .of_error (Desk.onDurable_of_error hfetch) hasked
  | ok found s =>
    rw [show Durable.fetch id (d.count _).shared.durable = _ from hfetch] at hasked
    refine .of_ok (Desk.onDurable_of_ok hfetch) ?_
    cases found with
    | none => exact .pure hasked
    | some a =>
      have hfetched := h.fetched hcount hr hfetch
      exact .bind (.modify (.pure hfetched))

theorem ensure (h : Draws I) (hd : I d) (id : ObjectId) :
    Work.Ends (Desk.ensure id) d (fun _ => I) fun _ => I := by
  refine .bind (.get ?_)
  split
  · exact .pure hd
  · rename_i hgone
    have hr : d.draft.removed? id = none := by
      simpa [Table.contains] using hgone
    split
    · exact .bind (.set (.pure (h.counted _ hd)))
    · split
      · rename_i a hcache
        have hentry : ∃ e, d.shared.cache.entries.get? id = some e ∧ e.anchor = some a := by
          unfold Cache.get? at hcache
          split at hcache
          · cases hcache
          · rename_i e he
            split at hcache
            · exact ⟨e, he, hcache⟩
            · cases hcache
        obtain ⟨e, he, ha⟩ := hentry
        exact .bind (.set (.pure (h.counted _ (h.cached hd hr he ha))))
      · exact h.fetch hd hr

theorem browses (h : Draws I) : Desk.Browses I := by
  intro id d hd
  refine (h.ensure hd id).andThen fun there d' hd' => ?_
  split
  · exact .bind (.get (.pure hd'))
  · exact .pure hd'

end Desk.Draws

end Loading

/-- All anchors in a cache have a property if they had it before, and what the
cache is told has it. -/
theorem Cache.forall_remember {c : Cache} {now : Instant} {id : ObjectId} {version : UInt64}
    {anchor : Option Anchor} {P : ObjectId → Anchor → Prop}
    (hold : ∀ {j e a}, c.entries.get? j = some e → e.anchor = some a → P j a)
    (hnew : ∀ a, anchor = some a → P id a) {j : ObjectId} {e : CacheEntry} {a : Anchor}
    (he : (c.remember now id version anchor).entries.get? j = some e) (ha : e.anchor = some a) :
    P j a := by
  rcases Cache.get?_of_remember he with ⟨rfl, rfl⟩ | ⟨hbefore, _⟩
  · exact hnew a ha
  · exact hold hbefore ha

/-- Telling the cache of a batch keeps a condition if telling it of one anchor
and of one removal does. -/
theorem Shared.settle_keeps {σ : Type} {I : Shared σ → Prop} {s : Shared σ}
    {batch : Batch} (h : I s) (hremember : ∀ {s} w, w ∈ batch.writes → I s → I (s.remember w))
    (hforget : ∀ {s} id version, I s → I (s.forget id version)) : I (s.settle batch) := by
  have hwritten : I (batch.writes.foldl Shared.remember s) :=
    List.foldlRecOn batch.writes Shared.remember h fun _ hs w hw => hremember w hw hs
  exact List.foldlRecOn batch.deletes _ hwritten fun _ hs x _ => hforget x.1 x.2 hs

/-! ## Good anchors -/

/-- A property of anchors under identities, and durable tiers in which every
anchor found under an identity has it. Neither versions nor marks of change
matter to it. -/
structure Holdings (σ : Type) [Durable σ] where
  good : ObjectId → Anchor → Prop
  own : ∀ {id a}, good id a → a.id = id
  marked : ∀ {id a} (version : UInt64) (dirty : Bool), good id a →
    good id { a with version := version, dirty := dirty }
  holds : σ → Prop
  fetched : ∀ {s s' id a}, holds s → Durable.fetch id s = .ok (some a) s' → good id a
  kept : ∀ {s} id, holds s → holds (endOf (Durable.fetch id) s)

namespace Holdings

variable {σ : Type} [Durable σ] {held : Holdings σ} {d : Desk σ} {id : ObjectId} {a b : Anchor}

/-- A draft of good copies. -/
structure Drafts (held : Holdings σ) (d : Draft) : Prop where
  keyed : d.Keyed
  copies : ∀ {id a}, d.copy? id = some a → held.good id a

/-- Shared tiers with good anchors. -/
structure Tiers (held : Holdings σ) (s : Shared σ) : Prop where
  durable : held.holds s.durable
  cached : ∀ {id e a}, s.cache.entries.get? id = some e → e.anchor = some a → held.good id a

/-- A desk with good anchors. -/
structure Desks (held : Holdings σ) (d : Desk σ) : Prop where
  draft : held.Drafts d.draft
  tiers : held.Tiers d.shared

/-! ## Drafts -/

namespace Drafts

variable {d : Draft}

theorem of_empty (h : d.volatile = Table.empty) : held.Drafts d := by
  refine ⟨.of_empty h, fun ha => ?_⟩
  rw [Draft.copy?, h] at ha
  cases ha

theorem mono {held' : Holdings σ} (h : held.Drafts d)
    (hgood : ∀ {id a}, held.good id a → held'.good id a) : held'.Drafts d :=
  ⟨h.keyed, fun ha => hgood (h.copies ha)⟩

theorem evict (h : held.Drafts d) : held.Drafts d.evictVolatile :=
  ⟨h.keyed.evict, fun ha => h.copies (Draft.copy?_of_evictVolatile ha).1⟩

theorem writes (h : held.Drafts d) : ∀ w ∈ d.writes, held.good w.id w := by
  intro w hw
  obtain ⟨id, a, ha, _, rfl⟩ := Draft.mem_writes.1 hw
  have hgood := h.copies ha
  exact h.keyed.own_committed ha ▸ held.marked _ _ hgood

theorem settle (h : held.Drafts d) : held.Drafts (d.settle d.batch) := by
  refine ⟨h.keyed.settle, fun hb => ?_⟩
  rcases h.keyed.settle_copy? hb with ⟨a, ha, _, rfl⟩ | ⟨hold, _⟩
  · exact held.marked _ _ (h.copies ha)
  · exact h.copies hold

end Drafts

/-! ## Shared tiers -/

namespace Tiers

variable {s : Shared σ}

theorem mono {held' : Holdings σ} (h : held.Tiers s)
    (hgood : ∀ {id a}, held.good id a → held'.good id a)
    (hholds : held.holds s.durable → held'.holds s.durable) : held'.Tiers s :=
  ⟨hholds h.durable, fun he ha => hgood (h.cached he ha)⟩

theorem remember (h : held.Tiers s) (ha : held.good a.id a) : held.Tiers (s.remember a) := by
  refine ⟨h.durable, Cache.forall_remember h.cached fun b hb => ?_⟩
  cases hb
  exact held.marked _ _ ha

theorem forget (h : held.Tiers s) (id : ObjectId) (version : UInt64) :
    held.Tiers (s.forget id version) :=
  ⟨h.durable, Cache.forall_remember h.cached fun _ hb => by cases hb⟩

theorem settle {batch : Batch} (h : held.Tiers s) (hwrites : ∀ w ∈ batch.writes, held.good w.id w) :
    held.Tiers (s.settle batch) :=
  Shared.settle_keeps h (fun w hw h => h.remember (hwrites w hw))
    fun id version h => h.forget id version

end Tiers

/-! ## Desks -/

namespace Desks

theorem count (h : held.Desks d) (f : Stats → Stats) : held.Desks (d.count f) :=
  ⟨⟨h.draft.keyed.congr rfl rfl, h.draft.copies⟩, h.tiers⟩

theorem minted (h : held.Desks d) : held.Desks d.minted :=
  ⟨h.draft, h.tiers.durable, h.tiers.cached⟩

theorem keep (h : held.Desks d) (ha : held.good id a) (hr : d.draft.removed? id = none) :
    held.Desks (d.keep id a) := by
  refine ⟨⟨h.draft.keyed.keep (held.own ha) hr, fun hb => ?_⟩, h.tiers⟩
  rw [Desk.keep_copy?] at hb
  split at hb
  · rename_i hid
    cases hb
    exact hid ▸ ha
  · exact h.draft.copies hb

/-- What is held may be changed into something else that is good. -/
theorem change (h : held.Desks d) (ha : d.draft.copy? id = some a) (hb : held.good id b) :
    held.Desks (d.keep id b) :=
  h.keep hb (h.draft.keyed.removed?_of_copy? ha)

theorem bury (h : held.Desks d) (id : ObjectId) (a : Anchor) : held.Desks (d.bury id a) := by
  refine ⟨⟨h.draft.keyed.bury id a, fun hb => ?_⟩, h.tiers⟩
  rw [Desk.bury_copy?] at hb
  split at hb
  · cases hb
  · exact h.draft.copies hb

theorem staged (h : held.Desks d) (ha : held.good a.id a) : held.Desks (d.staged a) := by
  refine ⟨⟨h.draft.keyed.stage a, fun hb => ?_⟩, h.tiers⟩
  rw [Desk.staged, Draft.stage_copy?] at hb
  split at hb
  · rename_i hid
    cases hb
    exact hid ▸ held.marked _ _ ha
  · exact h.draft.copies hb

end Desks

/-- Loading brings nothing but good anchors. -/
theorem browses : Desk.Browses held.Desks := by
  refine Desk.Draws.browses ⟨fun f h => h.count f, fun id h => ?_, fun h hr he ha => ?_,
    fun h hr hfetch => ?_⟩
  · exact ⟨h.draft, held.kept id h.tiers.durable, h.tiers.cached⟩
  · exact h.keep (h.tiers.cached he ha) hr
  · rename_i d id a s
    have hkept := held.kept id h.tiers.durable
    rw [endOf, hfetch] at hkept
    have hclean : held.good id a.clean := held.marked _ _ (held.fetched h.tiers.durable hfetch)
    have hown : held.good a.clean.id a.clean := (held.own hclean).symm ▸ hclean
    have htiers : held.Tiers { d.shared with durable := s } := ⟨hkept, h.tiers.cached⟩
    exact ⟨(h.keep hclean hr).draft, htiers.remember hown⟩

/-! ## Commits to a vault -/

/-- A commit to a vault keeps a desk good if it does so with the vault. -/
theorem commit {held : Holdings Vault} {d : Desk Vault} (h : held.Desks d)
    (hholds : held.holds { d.shared.durable with
      anchors := Vault.overlay d.shared.durable.anchors d.draft.batch }) :
    Work.Ends Desk.commit d (fun _ d' => held.Desks d' ∧ d' = d.published) fun _ d' => d' = d := by
  refine d.commit_outcome.mono (fun _ d' hcommit => ?_) fun _ _ hcommit => hcommit.2
  obtain ⟨_, _, rfl⟩ := hcommit
  have htiers : held.Tiers { d.shared with durable := { d.shared.durable with
    anchors := Vault.overlay d.shared.durable.anchors d.draft.batch } } := ⟨hholds, h.tiers.cached⟩
  exact ⟨⟨h.draft.settle, htiers.settle h.draft.writes⟩, rfl⟩

end Holdings

end Wayfarer
