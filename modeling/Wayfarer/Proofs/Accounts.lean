import Wayfarer.Proofs.Archive.Recall
import Wayfarer.Proofs.Caching
import Wayfarer.Proofs.Tenancy.Reachable

/-!
# Drafts that are accounted for

Requests load, change, stage, delete, commit, roll back, evict and reclaim, in
any order and with any outcome, over a durable tier that others change as well.
At every moment each draft keeps its copies under their own identities and apart
from what it removed; a copy without changes is a state that the durable tier
held at some moment, and whatever was removed had been committed. So a draft
sends every object once, and evicting drops nothing that a commit would send
(`Bureau.drafts_are_accounted_for`).

* `Keeper` is what may be relied on in a durable tier, and `Keeper.Proper` the
  condition on its contents.
* `Desk.Tended` is the invariant of a request at its desk. A step keeps it
  (`Desk.Tended.after`), and so does a run (`Bureau.Tended.play`).
* `Bureau.stays_proper` says that requests keep a durable tier proper that was
  so before, until the versions are used up.
-/

namespace Wayfarer

/-! ## Chores -/

/-- What a request may do with its draft and the tiers below. -/
inductive Chore
  | load (id : ObjectId)
  | update (id : ObjectId) (amendment : Amendment)
  | stage (a : Anchor)
  | delete (id : ObjectId)
  | commit
  | rollback
  | evict
  | reclaim (root : RootId)

/-- A chore at a desk. -/
def Chore.run {σ : Type} [Durable σ] : Chore → Work σ Unit
  | .load id => do
    let _ ← Desk.load id
  | .update id amendment => do
    let _ ← Desk.update? id amendment.change
  | .stage a => Desk.stage a
  | .delete id => Desk.delete id
  | .commit => do
    let _ ← Desk.commit
  | .rollback => Desk.onDraft Draft.rollback
  | .evict => Desk.onDraft Draft.evictVolatile
  | .reclaim root => do
    let _ ← Desk.evictUnreachable root

/-! ## Durable tiers -/

/-- What may be relied on in a durable tier. Whatever it reads is what it holds,
reading changes nothing of that, and a batch that it took is there afterwards.
Both may fail. -/
structure Keeper (σ : Type) [Durable σ] where
  inOrder : σ → Prop
  content : σ → ObjectId → Option Anchor
  fetched : ∀ {s s' id found}, inOrder s → Durable.fetch id s = .ok found s' → found = content s id
  kept : ∀ {s} id, inOrder s → inOrder (endOf (Durable.fetch id) s) ∧
    content (endOf (Durable.fetch id) s) = content s
  written : ∀ {s s' batch u w}, inOrder s → batch.NamesOnce → Durable.apply batch s = .ok u s' →
    w ∈ batch.writes → ∃ a, content s' w.id = some a ∧ a.clean = w.clean

namespace Keeper

variable {σ : Type} [Durable σ]

/-- The state of an object in a durable tier. -/
def stored (keeper : Keeper σ) (s : σ) (id : ObjectId) : Option Anchor :=
  (keeper.content s id).map Anchor.clean

/-- A durable tier with every anchor under its own identity, at version one or
later. -/
structure Proper (keeper : Keeper σ) (s : σ) : Prop where
  inOrder : keeper.inOrder s
  own : ∀ {id a}, keeper.content s id = some a → a.id = id
  version : ∀ {id a}, keeper.content s id = some a → a.version ≠ 0

end Keeper

/-- A store can be relied on. -/
def Store.keeper {σ : Type} [Durable σ] (store : Store σ) : Keeper σ where
  inOrder := store.holds
  content s id := (store.content s).get? id
  fetched := by
    intro s s' id found hs hfetch
    obtain ⟨s'', hfound, _⟩ := store.fetch hs id
    have hsame := hfetch.symm.trans hfound
    injection hsame
  kept := by
    intro s id hs
    obtain ⟨s', hfound, hs', hsame⟩ := store.fetch hs id
    have hend : endOf (Durable.fetch id) s = s' := by rw [endOf, hfound]
    rw [hend, hsame]
    exact ⟨hs', rfl⟩
  written := by
    intro s s' batch u w hs honce happly hw
    obtain ⟨⟨_, hcontent⟩, _⟩ := store.applied hs happly
    exact ⟨w.clean, by rw [hcontent, honce.get?_written hw], rfl⟩

theorem Vault.proper_iff (v : Vault) : Store.vault.keeper.Proper v ↔
    ∀ x ∈ v.anchors.toList, x.2.id = x.1 ∧ x.2.dirty = false ∧ x.2.version ≠ 0 := by
  constructor
  · rintro h ⟨id, a⟩ hx
    have ha : v.anchors.get? id = some a := Table.mem_toList.1 hx
    exact ⟨h.own ha, (Store.vault.tidy h.inOrder ha).2, h.version ha⟩
  · intro h
    have hheld : ∀ {id a}, v.anchors.get? id = some a → a.id = id ∧ a.dirty = false ∧
        a.version ≠ 0 :=
      fun ha => h _ (Table.mem_toList.2 ha)
    exact ⟨fun ha => ⟨(hheld ha).1, (hheld ha).2.1⟩, fun ha => (hheld ha).1,
      fun ha => (hheld ha).2.2⟩

instance : DecidablePred Store.vault.keeper.Proper := fun v =>
  decidable_of_iff _ v.proper_iff.symm

/-! ## Records -/

/-- An anchor that was committed under an identity, at version one or later. -/
structure Anchor.OnRecord (past : Anchor → Prop) (id : ObjectId) (a : Anchor) : Prop where
  own : a.id = id
  version : a.version ≠ 0
  past : past a

/-- A draft whose copies and removals are accounted for: a copy stands under its
own identity, it is changed or on record, and what was removed has no copy and
had been committed. -/
structure Draft.Accounted (past : Anchor → Prop) (d : Draft) : Prop extends d.Keyed where
  clean : ∀ {id a}, d.copy? id = some a → a.dirty = false → a.OnRecord past id
  buried : ∀ {id v}, d.removed? id = some v → v ≠ 0

variable {past past' : Anchor → Prop}

theorem Anchor.OnRecord.mono {id : ObjectId} {a : Anchor} (h : a.OnRecord past id)
    (hpast : ∀ {a}, past a → past' a) : a.OnRecord past' id :=
  ⟨h.own, h.version, hpast h.past⟩

namespace Draft.Accounted

variable {d : Draft}

theorem of_empty (hv : d.volatile = Table.empty) (ht : d.tombstones = Table.empty) :
    d.Accounted past := by
  refine ⟨.of_empty hv, fun ha => ?_, fun hr => ?_⟩
  · rw [Draft.copy?, hv] at ha
    cases ha
  · rw [Draft.removed?, ht] at hr
    cases hr

theorem mono (h : d.Accounted past) (hpast : ∀ {a}, past a → past' a) : d.Accounted past' :=
  ⟨h.toKeyed, fun ha hclean => (h.clean ha hclean).mono hpast, h.buried⟩

theorem stage (h : d.Accounted past) (a : Anchor) : (d.stage a).Accounted past := by
  refine ⟨h.toKeyed.stage a, ?_, ?_⟩
  · intro id b hb hclean
    rw [stage_copy?] at hb
    split at hb
    · cases hb
      cases hclean
    · exact h.clean hb hclean
  · intro id v hr
    rw [stage_removed?] at hr
    split at hr
    · cases hr
    · exact h.buried hr

theorem evict (h : d.Accounted past) : d.evictVolatile.Accounted past :=
  ⟨h.toKeyed.evict, fun ha => h.clean (copy?_of_evictVolatile ha).1, h.buried⟩

/-- A commit leaves nothing but what was written and what was on record
before. -/
theorem settle (h : d.Accounted past) (hwrites : ∀ w ∈ d.writes, w.OnRecord past w.id) :
    (d.settle d.batch).Accounted past := by
  refine ⟨h.toKeyed.settle, ?_, fun hr => by cases hr⟩
  intro id b hb _
  rcases h.toKeyed.settle_copy? hb with ⟨a, ha, hdirty, rfl⟩ | ⟨hold, hclean⟩
  · have hwritten := hwrites a.committed (mem_writes.2 ⟨id, a, ha, hdirty, rfl⟩)
    exact h.toKeyed.own_committed ha ▸ hwritten
  · exact h.clean hold hclean

variable {σ : Type} {d : Desk σ} {id : ObjectId} {a : Anchor}

theorem keep (h : d.draft.Accounted past) (hid : a.id = id) (hr : d.draft.removed? id = none)
    (hrecord : a.dirty = false → a.OnRecord past id) : (d.keep id a).draft.Accounted past := by
  refine ⟨h.toKeyed.keep hid hr, ?_, h.buried⟩
  intro j b hb hclean
  rw [Desk.keep_copy?] at hb
  split at hb
  · rename_i hj
    cases hb
    exact hj ▸ hrecord hclean
  · exact h.clean hb hclean

/-- Only what has a version is put among the removed objects. -/
theorem bury (h : d.draft.Accounted past) (id : ObjectId) (a : Anchor) :
    (d.bury id a).draft.Accounted past := by
  refine ⟨h.toKeyed.bury id a, ?_, ?_⟩
  · intro j b hb hclean
    rw [Desk.bury_copy?] at hb
    split at hb
    · cases hb
    · exact h.clean hb hclean
  · intro j v hr
    rw [Desk.bury_removed?] at hr
    split at hr
    · rename_i hnew
      cases hr
      exact hnew.2
    · exact h.buried hr

/-- What a draft does not lose by eviction: changes, new objects and whatever is
not on record. -/
theorem evict_copy? {d : Draft} (h : d.Accounted past) (ha : d.copy? id = some a)
    (hkeep : a.dirty = true ∨ a.version = 0 ∨ ¬ past a) : d.evictVolatile.copy? id = some a := by
  refine evictVolatile_of_dirty ha ?_
  by_contra hdirty
  have hrecord := h.clean ha (by simpa using hdirty)
  rcases hkeep with hchanged | hnew | hunknown
  · exact hdirty hchanged
  · exact hrecord.version hnew
  · exact hunknown hrecord.past

end Draft.Accounted

/-! ## Tiers -/

namespace Keeper

variable {σ : Type} [Durable σ] {keeper : Keeper σ}

/-- A durable tier that holds nothing but what is on record. -/
structure Records (keeper : Keeper σ) (past : Anchor → Prop) (s : σ) : Prop where
  inOrder : keeper.inOrder s
  stored : ∀ {id a}, keeper.stored s id = some a → a.OnRecord past id

/-- Shared tiers that hold nothing but what is on record. -/
structure Trusts (keeper : Keeper σ) (past : Anchor → Prop) (s : Shared σ) : Prop where
  durable : keeper.Records past s.durable
  cached : ∀ {id e a}, s.cache.entries.get? id = some e → e.anchor = some a → a.OnRecord past id

theorem Proper.records {s : σ} (h : keeper.Proper s)
    (hpast : ∀ {a}, keeper.stored s a.id = some a → past a) : keeper.Records past s := by
  refine ⟨h.inOrder, ?_⟩
  intro id a ha
  obtain ⟨b, hb, rfl⟩ := Option.map_eq_some_iff.1 ha
  have hid : b.id = id := h.own hb
  have hversion : b.version ≠ 0 := h.version hb
  refine ⟨hid, hversion, hpast ?_⟩
  rw [← hid] at ha
  exact ha

theorem Records.proper {s : σ} (h : keeper.Records past s) : keeper.Proper s := by
  have hrecord : ∀ {id a}, keeper.content s id = some a → a.clean.OnRecord past id := by
    intro id a ha
    refine h.stored ?_
    rw [Keeper.stored, ha, Option.map_some]
  exact ⟨h.inOrder, fun ha => (hrecord ha).own, fun ha => (hrecord ha).version⟩

namespace Trusts

variable {s : Shared σ}

theorem remember (h : keeper.Trusts past s) {a : Anchor} (ha : a.clean.OnRecord past a.id) :
    keeper.Trusts past (s.remember a) := by
  refine ⟨h.durable, Cache.forall_remember h.cached fun b hb => ?_⟩
  cases hb
  exact ha

theorem forget (h : keeper.Trusts past s) (id : ObjectId) (version : UInt64) :
    keeper.Trusts past (s.forget id version) :=
  ⟨h.durable, Cache.forall_remember h.cached fun _ hb => by cases hb⟩

end Trusts

end Keeper

/-! ## Desks -/

/-- A desk whose draft is accounted for, over tiers that hold nothing but what
is on record. -/
structure Desk.Tended {σ : Type} [Durable σ] (keeper : Keeper σ) (past : Anchor → Prop)
    (d : Desk σ) :
    Prop where
  draft : d.draft.Accounted past
  tiers : keeper.Trusts past d.shared

namespace Desk.Tended

variable {σ : Type} [Durable σ] {keeper : Keeper σ} {d : Desk σ} {id : ObjectId} {a : Anchor}

/-- A copy may be changed into anything that is marked as changed and has the
same identity. -/
theorem edit (h : d.Tended keeper past) (ha : d.draft.copy? id = some a) {b : Anchor}
    (hid : b.id = a.id) : (d.keep id { b with dirty := true }).Tended keeper past := by
  have hown : b.id = id := hid.trans (h.draft.own ha)
  refine ⟨h.draft.keep hown (h.draft.removed?_of_copy? ha) fun hclean => ?_, h.tiers⟩
  cases hclean

theorem draws : Desk.Draws (Desk.Tended keeper past) where
  counted _ h := ⟨⟨h.draft.congr rfl rfl, h.draft.clean, h.draft.buried⟩, h.tiers⟩
  asked id h := by
    obtain ⟨horder, hsame⟩ := keeper.kept id h.tiers.durable.inOrder
    refine ⟨h.draft, ⟨horder, fun ha => h.tiers.durable.stored ?_⟩, h.tiers.cached⟩
    rwa [Keeper.stored, hsame] at ha
  cached h hr he ha := by
    have hrecord := h.tiers.cached he ha
    exact ⟨h.draft.keep hrecord.own hr fun _ => hrecord, h.tiers⟩
  fetched h hr hfetch := by
    rename_i d id a s
    have horder := h.tiers.durable.inOrder
    obtain ⟨hafter, hsame⟩ := keeper.kept id horder
    rw [endOf, hfetch] at hafter hsame
    have hrecord : a.clean.OnRecord past id := by
      refine h.tiers.durable.stored ?_
      rw [Keeper.stored, ← keeper.fetched horder hfetch]
      rfl
    have htiers : keeper.Trusts past { d.shared with durable := s } := by
      refine ⟨⟨hafter, fun hb => h.tiers.durable.stored ?_⟩, h.tiers.cached⟩
      rwa [Keeper.stored, hsame] at hb
    refine ⟨h.draft.keep hrecord.own hr fun _ => hrecord, htiers.remember ?_⟩
    exact hrecord.own.symm ▸ hrecord

theorem prunes : Desk.Prunes (Desk.Tended keeper past) where
  browses := draws.browses
  detach e _ := draws.browses.update? fun hd ha => hd.edit ha (Anchor.mapNode_id _ (·.detach e))
  delete _ := draws.browses.delete fun hd _ => ⟨hd.draft.bury _ _, hd.tiers⟩

/-- After a commit everything is on record that the durable tier holds then. -/
theorem commit (h : d.Tended keeper past) (hpast : ∀ {a}, past a → past' a)
    (hafter : keeper.Records past' (endOf Desk.commit d).shared.durable) :
    (endOf Desk.commit d).Tended keeper past' := by
  have hcached : ∀ {id e a}, d.shared.cache.entries.get? id = some e → e.anchor = some a →
      a.OnRecord past' id := fun he ha => (h.tiers.cached he ha).mono hpast
  refine Work.Ends.endOf (I := fun d' => keeper.Records past' d'.shared.durable →
    d'.Tended keeper past') (Desk.commit_cases ?_ ?_ ?_) hafter
  · exact fun _ hdurable => ⟨h.draft.mono hpast, hdurable, hcached⟩
  · intro s happly hdurable
    rw [Shared.settle_durable] at hdurable
    -- the durable tier took the batch, so every write is on record as part of what it
    -- holds now
    have hwrites : ∀ w ∈ d.draft.writes, w.clean = w ∧ w.OnRecord past' w.id := by
      intro w hw
      have hclean : w.clean = w := by
        obtain ⟨_, _, _, _, rfl⟩ := Draft.mem_writes.1 hw
        rfl
      obtain ⟨a, ha, hsame⟩ :=
        keeper.written h.tiers.durable.inOrder h.draft.namesOnce happly hw
      refine ⟨hclean, hdurable.stored ?_⟩
      rw [Keeper.stored, ha, Option.map_some, hsame, hclean]
    refine ⟨(h.draft.mono hpast).settle fun w hw => (hwrites w hw).2, ?_⟩
    refine Shared.settle_keeps ⟨hdurable, hcached⟩ (fun w hw htiers => ?_)
      fun id version htiers => htiers.forget id version
    exact htiers.remember ((hwrites w hw).1.symm ▸ (hwrites w hw).2)
  · exact fun _ _ _ hdurable => ⟨h.draft.mono hpast, hdurable, hcached⟩

/-- No chore but a commit puts anything on record. -/
theorem keeps {chore : Chore} (hchore : chore ≠ .commit) :
    Work.Keeps (Desk.Tended (σ := σ) keeper past) chore.run := by
  cases chore with
  | load id => exact .bind (draws.browses id) fun _ => .pure _
  | update id amendment =>
    refine .bind (draws.browses.update? fun hd ha => hd.edit ha ?_) fun _ => .pure _
    exact amendment.id_change _
  | stage a => exact fun d hd => .modify ⟨hd.draft.stage a, hd.tiers⟩
  | delete id => exact prunes.delete id
  | commit => exact absurd rfl hchore
  | rollback => exact fun d hd => .modify ⟨.of_empty rfl rfl, hd.tiers⟩
  | evict => exact fun d hd => .modify ⟨hd.draft.evict, hd.tiers⟩
  | reclaim root => exact .bind (prunes.culls.evictUnreachable root) fun _ => .pure _

/-- A chore leaves a desk tended, be it done or not, if everything is on record
that the durable tier holds afterwards. -/
theorem after (h : d.Tended keeper past) (hpast : ∀ {a}, past a → past' a) (chore : Chore)
    (hafter : keeper.Records past' (endOf chore.run d).shared.durable) :
    (endOf chore.run d).Tended keeper past' := by
  -- a commit is the one chore that changes what the durable tier holds
  by_cases hchore : chore = .commit
  · subst hchore
    have hend : endOf (Chore.run .commit) d = endOf Desk.commit d := endOf_bind_pure
    rw [hend] at hafter ⊢
    exact h.commit hpast hafter
  · have hend := (keeps hchore d h).endOf
    exact ⟨hend.draft.mono hpast, hafter, fun he ha => (hend.tiers.cached he ha).mono hpast⟩

/-- A commit leaves a store proper, unless the change has used up the versions
there are. -/
theorem commit_proper {store : Store σ} (h : d.Tended store.keeper past) (hspare : d.draft.Spare) :
    store.keeper.Proper (endOf Desk.commit d).shared.durable := by
  have hbefore := h.tiers.durable.proper
  refine Work.Ends.endOf (I := fun d' => store.keeper.Proper d'.shared.durable)
    (Desk.commit_cases (fun _ => hbefore) (fun s happly => ?_) fun e s happly => ?_)
  · obtain ⟨⟨hs, hcontent⟩, _⟩ := store.applied hbefore.inOrder happly
    have hwritten : ∀ {id b}, (store.content s).get? id = some b → b.id = id ∧ b.version ≠ 0 := by
      intro id b hb
      rw [hcontent] at hb
      rcases h.draft.of_overlay hb with ⟨a, ha, hdirty, rfl⟩ | ⟨_, hold⟩
      · exact ⟨h.draft.own_committed ha, hspare a (Table.mem_values.2 ⟨id, ha⟩) hdirty⟩
      · exact ⟨hbefore.own hold, hbefore.version hold⟩
    rw [Shared.settle_durable]
    exact ⟨hs, fun hb => (hwritten hb).1, fun hb => (hwritten hb).2⟩
  · obtain ⟨hs, hcontent⟩ := store.refused hbefore.inOrder happly
    have hsame : store.keeper.content s = store.keeper.content d.shared.durable := by
      funext id
      exact congrArg (·.get? id) hcontent
    exact ⟨hs, fun ha => hbefore.own (hsame ▸ ha), fun ha => hbefore.version (hsame ▸ ha)⟩

end Desk.Tended

/-! ## Bureaus -/

/-- Shared tiers over a durable tier that others use as well, and the drafts of
the requests by name. -/
structure Bureau (σ : Type) where
  shared : Shared σ
  drafts : Table String Draft

namespace Bureau

/-- Something that happens in a bureau. A request of a new name begins with an
empty draft. -/
inductive Event (σ : Type)
  | chore (name : String) (chore : Chore)
  /-- Others have left the durable tier in some state. -/
  | outside (s : σ)
  | wait (ticks : Nat)
  | clear

variable {σ : Type} [Durable σ]

/-- A bureau with a new cache, in which no request has begun. -/
def opened (s : σ) (ttl capacity : Nat) : Bureau σ :=
  ⟨⟨s, ⟨ttl, capacity, Table.empty⟩, default, 0, Table.empty, Table.empty⟩, Table.empty⟩

/-- The draft of a request. -/
def draft (b : Bureau σ) (name : String) : Draft := (b.drafts.get? name).getD Draft.empty

/-- The desk of a request. -/
def desk (b : Bureau σ) (name : String) : Desk σ := ⟨b.draft name, b.shared⟩

/-- The bureau when a request has left its desk. -/
def left (b : Bureau σ) (name : String) (d : Desk σ) : Bureau σ :=
  ⟨d.shared, b.drafts.insert name d.draft⟩

/-- The bureau after an event. A failed chore keeps what it had done. -/
def step (b : Bureau σ) : Event σ → Bureau σ
  | .chore name chore => b.left name (endOf chore.run (b.desk name))
  | .outside s => { b with shared := { b.shared with durable := s } }
  | .wait ticks => { b with shared := { b.shared with now := b.shared.now + ticks } }
  | .clear => { b with shared := { b.shared with cache := b.shared.cache.clear } }

/-- The bureau after a list of events. -/
def play (b : Bureau σ) (events : List (Event σ)) : Bureau σ := events.foldl step b

/-- States that the durable tier held at some moment of a list of events. -/
def Committed (keeper : Keeper σ) (b : Bureau σ) (events : List (Event σ)) (a : Anchor) : Prop :=
  ∃ before, before <+: events ∧ keeper.stored (b.play before).shared.durable a.id = some a

/-- The request that commits in an event. -/
def Event.committer? : Event σ → Option String
  | .chore name .commit => some name
  | _ => none

/-- What others make of the durable tier in an event. -/
def Event.replacement? : Event σ → Option σ
  | .outside s => some s
  | _ => none

/-- No request commits a change that has used up the versions there are, and
others leave the durable tier proper. -/
def Lawful (keeper : Keeper σ) (b : Bureau σ) : List (Event σ) → Prop
  | [] => True
  | event :: events => (∀ name ∈ event.committer?, (b.draft name).Spare) ∧
      (∀ s ∈ event.replacement?, keeper.Proper s) ∧ (b.step event).Lawful keeper events

instance decidableLawful (keeper : Keeper σ) [DecidablePred keeper.Proper] (b : Bureau σ) :
    (events : List (Event σ)) → Decidable (b.Lawful keeper events)
  | [] => inferInstanceAs (Decidable True)
  | event :: events =>
    have := decidableLawful keeper (b.step event) events
    inferInstanceAs (Decidable ((∀ name ∈ event.committer?, (b.draft name).Spare) ∧
      (∀ s ∈ event.replacement?, keeper.Proper s) ∧ (b.step event).Lawful keeper events))

/-- A bureau in which every desk is tended. -/
structure Tended (keeper : Keeper σ) (past : Anchor → Prop) (b : Bureau σ) : Prop where
  drafts : ∀ name, (b.draft name).Accounted past
  tiers : keeper.Trusts past b.shared

variable {keeper : Keeper σ} {b : Bureau σ}

theorem play_append (b : Bureau σ) (events : List (Event σ)) (event : Event σ) :
    b.play (events ++ [event]) = (b.play events).step event :=
  List.foldl_append

omit [Durable σ] in
theorem draft_left (name other : String) (d : Desk σ) :
    (b.left name d).draft other = if other = name then d.draft else b.draft other := by
  unfold draft left
  simp only [Table.get?_insert]
  split <;> rfl

theorem Tended.of_records {s : σ} (ttl capacity : Nat) (h : keeper.Records past s) :
    (opened s ttl capacity).Tended keeper past :=
  ⟨fun _ => .of_empty rfl rfl, h, fun he => by cases he⟩

/-- An event keeps desks tended, if everything is on record that the durable
tier holds afterwards. -/
theorem Tended.step (h : b.Tended keeper past) (hpast : ∀ {a}, past a → past' a) (event : Event σ)
    (hafter : keeper.Records past' (b.step event).shared.durable) :
    (b.step event).Tended keeper past' := by
  have hdrafts : ∀ name, (b.draft name).Accounted past' := fun name => (h.drafts name).mono hpast
  have hcached : ∀ {id e a}, b.shared.cache.entries.get? id = some e → e.anchor = some a →
      a.OnRecord past' id := fun he ha => (h.tiers.cached he ha).mono hpast
  cases event with
  | chore name chore =>
    have hdesk : (b.desk name).Tended keeper past := ⟨h.drafts name, h.tiers⟩
    have hend := hdesk.after hpast chore hafter
    refine ⟨fun other => ?_, hend.tiers⟩
    rw [Bureau.step, draft_left]
    split
    · exact hend.draft
    · exact hdrafts other
  | outside s => exact ⟨hdrafts, hafter, hcached⟩
  | wait ticks => exact ⟨hdrafts, hafter, hcached⟩
  | clear => exact ⟨hdrafts, hafter, fun he => by cases he⟩

/-- Over a durable tier that is proper at every moment, all desks are tended.
What is on record grows with the run, so the induction adds events at its
end. -/
theorem Tended.play {s : σ} {ttl capacity : Nat} (events : List (Event σ))
    (hproper : ∀ before, before <+: events →
      keeper.Proper ((opened s ttl capacity).play before).shared.durable) :
    ((opened s ttl capacity).play events).Tended keeper
    ((opened s ttl capacity).Committed keeper events) := by
  induction events using List.reverseRecOn with
  | nil =>
    have hstart := hproper [] (List.prefix_refl _)
    exact .of_records ttl capacity (hstart.records fun ha => ⟨[], List.prefix_refl _, ha⟩)
  | append_singleton events event ih =>
    have hearlier : ∀ {before}, before <+: events → before <+: events ++ [event] := fun h =>
      h.trans (List.prefix_append ..)
    have hrun := ih fun before hbefore => hproper before (hearlier hbefore)
    have hrecords : keeper.Records ((opened s ttl capacity).Committed keeper (events ++ [event]))
        ((opened s ttl capacity).play (events ++ [event])).shared.durable :=
      (hproper _ (List.prefix_refl _)).records fun ha => ⟨_, List.prefix_refl _, ha⟩
    rw [play_append] at hrecords ⊢
    refine hrun.step ?_ event hrecords
    rintro a ⟨before, hbefore, ha⟩
    exact ⟨before, hearlier hbefore, ha⟩

/-! ## Who keeps the durable tier proper -/

/-- What requests do over a store leaves it proper. -/
theorem Tended.step_proper {store : Store σ} (h : b.Tended store.keeper past) {event : Event σ}
    (hspare : ∀ name ∈ event.committer?, (b.draft name).Spare)
    (hothers : ∀ s ∈ event.replacement?, store.keeper.Proper s) :
    store.keeper.Proper (b.step event).shared.durable := by
  cases event with
  | chore name chore =>
    have hdesk : (b.desk name).Tended store.keeper past := ⟨h.drafts name, h.tiers⟩
    by_cases hchore : chore = .commit
    · subst hchore
      have hend : endOf (Chore.run .commit) (b.desk name) = endOf Desk.commit (b.desk name) :=
        endOf_bind_pure
      rw [Bureau.step, hend]
      exact hdesk.commit_proper (hspare name rfl)
    · exact (Desk.Tended.keeps hchore _ hdesk).endOf.tiers.durable.proper
  | outside s => exact hothers s rfl
  | wait ticks => exact h.tiers.durable.proper
  | clear => exact h.tiers.durable.proper

/-- A store is proper at every moment of a lawful run. -/
theorem Tended.stays_proper {store : Store σ} {events before : List (Event σ)}
    (h : b.Tended store.keeper fun _ => True) (hlawful : b.Lawful store.keeper events)
    (hbefore : before <+: events) : store.keeper.Proper (b.play before).shared.durable := by
  induction events generalizing b before with
  | nil =>
    rw [List.prefix_nil.1 hbefore]
    exact h.tiers.durable.proper
  | cons event events ih =>
    obtain ⟨hspare, hothers, hlater⟩ := hlawful
    rcases List.prefix_cons_iff.1 hbefore with rfl | ⟨rest, rfl, hrest⟩
    · exact h.tiers.durable.proper
    · have hafter := h.step_proper hspare hothers
      have hrun := ih (h.step id event (hafter.records fun _ => trivial)) hlater hrest
      exact hrun

/-- Requests keep a store proper that was so before they began. -/
theorem stays_proper {store : Store σ} {s : σ} (hs : store.keeper.Proper s) (ttl capacity : Nat)
    {events : List (Event σ)} (hlawful : (opened s ttl capacity).Lawful store.keeper events) :
    ∀ before, before <+: events →
      store.keeper.Proper ((opened s ttl capacity).play before).shared.durable := fun _ hbefore =>
  (Tended.of_records ttl capacity (hs.records fun _ => trivial)).stays_proper hlawful hbefore

/-! ## What drafts hold -/

/-- Whatever requests do and whatever happens besides, as long as the durable
tier holds every anchor under its own identity and at version one or later: each
draft is accounted for by states that the durable tier held, it sends every
object once, and evicting leaves its removals and every copy that is changed,
new, or in a state that was never committed. -/
theorem drafts_are_accounted_for (keeper : Keeper σ) (s : σ) (ttl capacity : Nat)
    (events : List (Event σ)) (hproper : ∀ before, before <+: events →
      keeper.Proper ((opened s ttl capacity).play before).shared.durable) (name : String) :
    let committed := (opened s ttl capacity).Committed keeper events
    let d := ((opened s ttl capacity).play events).draft name
    d.Accounted committed ∧ d.batch.NamesOnce ∧ d.evictVolatile.tombstones = d.tombstones ∧
      ∀ id a, d.copy? id = some a → a.dirty = true ∨ a.version = 0 ∨ ¬ committed a →
        d.evictVolatile.copy? id = some a := by
  intro committed d
  have haccounted : d.Accounted committed := (Tended.play events hproper).drafts name
  exact ⟨haccounted, haccounted.namesOnce, rfl, fun _ _ ha hkeep => haccounted.evict_copy? ha hkeep⟩

/-- A host puts three nodes down. A guest changes one of them too late and
another in time, has both reclaimed and puts a fourth one down, while it still
holds the third as it was before others changed it. -/
def visit : List (Event Vault) :=
  let root : RootId := ⟨⟨⟨0⟩⟩⟩
  let node (id : NodeId) : Anchor := .ofNode id root (.isolated ⟨⟨9⟩⟩ Fields.empty)
  let late := node ⟨⟨1⟩⟩
  let stale := node ⟨⟨2⟩⟩
  let timely := node ⟨⟨3⟩⟩
  let shared : Amendment := ⟨fun a => { a with access := a.access.grant .connect }, fun _ => rfl⟩
  let others : Vault := ⟨Table.empty.insert stale.id { stale with version := 7, dirty := false }, 1⟩
  [.chore "host" (.stage late), .chore "host" (.stage stale), .chore "host" (.stage timely),
    .chore "host" .commit, .chore "guest" (.load late.id), .chore "host" (.update late.id shared),
    .chore "host" .commit, .chore "guest" (.update late.id shared), .chore "guest" .commit, .wait 3,
    .chore "guest" (.update timely.id shared), .chore "guest" (.reclaim root),
    .chore "guest" (.load stale.id), .chore "guest" (.stage (node ⟨⟨4⟩⟩)), .outside others, .clear]

theorem drafts_of_guest_are_accounted_for : Store.vault.keeper.Proper Vault.empty ∧
    (opened Vault.empty 5 2).Lawful Store.vault.keeper visit ∧
    let b := (opened Vault.empty 5 2).play visit
    let d := b.draft "guest"
    (d.volatile.values.map fun a => (a.version, a.dirty)) = [(1, false), (0, true)] ∧
      d.tombstones.values = [1, 1] ∧ (b.shared.durable.anchors.values.map (·.version)) = [7] ∧
      d.Accounted ((opened Vault.empty 5 2).Committed Store.vault.keeper visit) ∧
        d.batch.NamesOnce :=
  have hempty : Store.vault.keeper.Proper Vault.empty := by decide
  have hlawful : (opened Vault.empty 5 2).Lawful Store.vault.keeper visit := by decide +kernel
  have haccounted := drafts_are_accounted_for Store.vault.keeper Vault.empty 5 2 visit
    (stays_proper hempty 5 2 hlawful) "guest"
  ⟨hempty, hlawful, by decide +kernel, by decide +kernel, by decide +kernel, haccounted.1,
    haccounted.2.1⟩

end Bureau

end Wayfarer
