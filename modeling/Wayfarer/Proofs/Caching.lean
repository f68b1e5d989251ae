import Wayfarer.Proofs.Commit.Drafts

/-!
# A cache that nobody notices

An office is a vault with a cache above it and any number of requests that share
both, each with a draft of its own. Requests run errands at their desks, one at
a time and in any order; in between time passes and the cache may be cleared.
Whatever the lifetime and the capacity of the cache, every errand is answered as
it would be without a cache, and the vault and the drafts come out the same
(`Office.cache_is_transparent`).

* `Office.play` and `Office.answers` carry out a list of events.
* `Desk.Alike` relates desks that differ in their caches, clocks and counts of
  reads alone. An errand run at two such desks has the same outcome
  (`Errand.alike`), and so has an event in two offices of such desks
  (`Office.Alike.step`).
-/

namespace Wayfarer

/-- What a request may do to an anchor that it was lent for a change: anything
but rename it. The mark of change is set after the change (`Desk.update?`), so
an amendment cannot clear it. -/
structure Amendment where
  change : Anchor → Anchor
  id_change : ∀ a, (change a).id = a.id

/-- What a request may ask of its tiers. -/
inductive Errand
  | load (id : ObjectId)
  | update (id : ObjectId) (amendment : Amendment)
  | stage (a : Anchor)
  | delete (id : ObjectId)
  | commit
  | rollback
  | evict

namespace Errand

/-- What an errand answers. -/
inductive Answer
  | found (a : Option Anchor)
  | committed (receipt : Receipt)
  | done

/-- An errand at a desk. -/
def run : Errand → Work Vault Answer
  | .load id => do pure (.found (← Desk.load id))
  | .update id amendment => do pure (.found (← Desk.update? id amendment.change))
  | .stage a => do
    Desk.stage a
    pure .done
  | .delete id => do
    Desk.delete id
    pure .done
  | .commit => do pure (.committed (← Desk.commit))
  | .rollback => do
    Desk.onDraft Draft.rollback
    pure .done
  | .evict => do
    Desk.onDraft Draft.evictVolatile
    pure .done

end Errand

/-- Shared tiers over a vault, and the drafts of the requests by name. -/
structure Office where
  shared : Shared Vault
  drafts : Table String Draft

namespace Office

/-- Something that happens in an office. A request of a new name begins with an
empty draft. -/
inductive Event
  | errand (name : String) (errand : Errand)
  | wait (ticks : Nat)
  | clear

/-- An office with a new cache, in which no request has begun. -/
def opened (vault : Vault) (ttl capacity : Nat) : Office :=
  ⟨⟨vault, ⟨ttl, capacity, Table.empty⟩, default, 0, Table.empty, Table.empty⟩, Table.empty⟩

/-- The draft of a request. -/
def draft (o : Office) (name : String) : Draft := (o.drafts.get? name).getD Draft.empty

/-- The desk of a request. -/
def desk (o : Office) (name : String) : Desk Vault := ⟨o.draft name, o.shared⟩

/-- The office when a request has left its desk. -/
def left (o : Office) (name : String) (d : Desk Vault) : Office :=
  ⟨d.shared, o.drafts.insert name d.draft⟩

/-- What comes of an errand, and the desk afterwards. A failed errand keeps what
it had done. -/
def outcome (o : Office) (name : String) (errand : Errand) :
    Except Error Errand.Answer × Desk Vault :=
  match errand.run (o.desk name) with
  | .ok answer d => (.ok answer, d)
  | .error e d => (.error e, d)

/-- The office after an event. -/
def step (o : Office) : Event → Office
  | .errand name errand => o.left name (o.outcome name errand).2
  | .wait ticks => { o with shared := { o.shared with now := o.shared.now + ticks } }
  | .clear => { o with shared := { o.shared with cache := o.shared.cache.clear } }

/-- The answer to an errand; no other event has one. -/
def answer (o : Office) : Event → Option (Except Error Errand.Answer)
  | .errand name errand => some (o.outcome name errand).1
  | .wait _ => none
  | .clear => none

/-- The office after a list of events. -/
def play (o : Office) (events : List Event) : Office := events.foldl step o

/-- The answers to a list of events. -/
def answers (o : Office) : List Event → List (Option (Except Error Errand.Answer))
  | [] => []
  | event :: events => o.answer event :: (o.step event).answers events

/-- The request that commits in an event. -/
def Event.committer? : Event → Option String
  | .errand name .commit => some name
  | _ => none

/-- No request comes to commit a change that has used up the versions there
are. -/
def Spare (o : Office) : List Event → Prop
  | [] => True
  | event :: events =>
    (∀ name ∈ event.committer?, (o.draft name).Spare) ∧ (o.step event).Spare events

instance decidableSpare (o : Office) : (events : List Event) → Decidable (o.Spare events)
  | [] => inferInstanceAs (Decidable True)
  | event :: events =>
    have := decidableSpare (o.step event) events
    inferInstanceAs (Decidable ((∀ name ∈ event.committer?, (o.draft name).Spare) ∧
      (o.step event).Spare events))

/-- No copy in any draft has used up the versions there are, before and after
every event. -/
def Roomy (o : Office) : List Event → Prop
  | [] => ∀ d ∈ o.drafts.values, d.Roomy
  | event :: events => (∀ d ∈ o.drafts.values, d.Roomy) ∧ (o.step event).Roomy events

instance decidableRoomy (o : Office) : (events : List Event) → Decidable (o.Roomy events)
  | [] => inferInstanceAs (Decidable (∀ d ∈ o.drafts.values, d.Roomy))
  | event :: events =>
    have := decidableRoomy (o.step event) events
    inferInstanceAs (Decidable ((∀ d ∈ o.drafts.values, d.Roomy) ∧ (o.step event).Roomy events))

end Office

/-! ## Desks that differ in their caches -/

/-- Two desks in good order that agree in all that a request can notice. -/
structure Desk.Alike (d d' : Desk Vault) : Prop where
  volatile : d'.draft.volatile = d.draft.volatile
  tombstones : d'.draft.tombstones = d.draft.tombstones
  durable : d'.shared.durable = d.shared.durable
  keyed : d.draft.Keyed
  agreed : d.shared.Agreed
  agreed' : d'.shared.Agreed

/-- Work at two desks with the same outcome, after which they are alike. -/
def Work.Alike {α : Type} (w : Work Vault α) (d d' : Desk Vault) : Prop :=
  Work.Ends w d
    (fun a d₁ => Work.Ends w d' (fun a' d₁' => a' = a ∧ d₁.Alike d₁') fun _ _ => False)
    fun e d₁ => Work.Ends w d' (fun _ _ => False) fun e' d₁' => e' = e ∧ d₁.Alike d₁'

theorem Work.Alike.map {α β : Type} {w : Work Vault α} {d d' : Desk Vault} (h : w.Alike d d')
    (f : α → β) : Work.Alike (do pure (f (← w))) d d' := by
  refine .bind (h.mono ?_ ?_)
  · rintro a d₁ h'
    refine .pure (h'.andThen ?_)
    rintro _ d₁' ⟨rfl, hd⟩
    exact .pure ⟨rfl, hd⟩
  · rintro e d₁ h'
    exact h'.andThen fun _ _ hf => hf.elim

namespace Desk.Alike

variable {d d' : Desk Vault}

theorem view_eq (h : d.Alike d') (id : ObjectId) :
    d'.draft.view d'.stored id = d.draft.view d.stored id := by
  simp only [Draft.view, h.volatile, h.tombstones, stored, Shared.stored, h.durable]

theorem recalled (h : d.Alike d') {id : ObjectId} {d₁ d₁' : Desk Vault}
    (hr : Recalled (tier h.agreed) id d d₁) (hr' : Recalled (tier h.agreed') id d' d₁') :
    d₁.Alike d₁' := by
  refine ⟨?_, ?_, ?_, ?_, hr.fetched.loaded.agreed, hr'.fetched.loaded.agreed⟩
  · rw [hr.volatile, hr'.volatile]
    simp only [Draft.recollect, h.volatile, h.tombstones, Tier.ofVault, h.durable]
  · rw [hr.tombstones, hr'.tombstones, h.tombstones]
  · rw [hr.fetched.loaded.durable, hr'.fetched.loaded.durable, h.durable]
  · exact h.keyed.filled h.agreed.tidy hr.fetched.toFilled

/-- The same change to two drafts. -/
theorem redrafted (h : d.Alike d') {f : Draft → Draft} (hk : (f d.draft).Keyed)
    (hv : (f d'.draft).volatile = (f d.draft).volatile)
    (ht : (f d'.draft).tombstones = (f d.draft).tombstones) :
    Work.Alike (Desk.onDraft f) d d' :=
  .modify (.modify ⟨rfl, hv, ht, h.durable, hk, h.agreed, h.agreed'⟩)

theorem load (h : d.Alike d') (id : ObjectId) : Work.Alike (Desk.load id) d d' := by
  refine (load_ends (over_tier h.agreed) id).mono ?_ fun _ _ hf => hf.elim
  rintro _ d₁ ⟨rfl, hr⟩
  refine (load_ends (over_tier h.agreed') id).imp ?_
  rintro _ d₁' ⟨rfl, hr'⟩
  exact ⟨h.view_eq id, h.recalled hr hr'⟩

theorem update? (h : d.Alike d') (id : ObjectId) (amendment : Amendment) :
    Work.Alike (Desk.update? id amendment.change) d d' := by
  refine (update?_ends (over_tier h.agreed) id _).mono ?_ fun _ _ hf => hf.elim
  rintro _ _ ⟨rfl, d₁, hr, rfl⟩
  refine (update?_ends (over_tier h.agreed') id _).imp ?_
  rintro _ _ ⟨rfl, d₁', hr', rfl⟩
  have h₁ := h.recalled hr hr'
  refine ⟨h.view_eq id, ?_⟩
  rw [show d'.draft.view (tier h.agreed').content id = _ from h.view_eq id]
  cases ha : d.draft.view d.stored id with
  | none =>
    rw [show d.draft.view (tier h.agreed).content id = none from ha]
    exact h₁
  | some a =>
    rw [show d.draft.view (tier h.agreed).content id = some a from ha]
    refine ⟨?_, h₁.tombstones, h₁.durable, ?_, h₁.agreed, h₁.agreed'⟩
    · simp only [Option.elim, keep, h₁.volatile]
    · have hcopy := hr.copied ha
      refine h₁.keyed.keep ?_ (h₁.keyed.removed?_of_copy? hcopy)
      exact (amendment.id_change a).trans (h₁.keyed.own hcopy)

theorem delete (h : d.Alike d') (id : ObjectId) : Work.Alike (Desk.delete id) d d' := by
  refine (delete_ends (over_tier h.agreed) id).mono ?_ fun _ _ hf => hf.elim
  rintro _ _ ⟨d₁, hr, rfl⟩
  refine (delete_ends (over_tier h.agreed') id).imp ?_
  rintro _ _ ⟨d₁', hr', rfl⟩
  have h₁ := h.recalled hr hr'
  refine ⟨rfl, ?_⟩
  rw [show d'.draft.view (tier h.agreed').content id = _ from h.view_eq id]
  cases ha : d.draft.view d.stored id with
  | none =>
    rw [show d.draft.view (tier h.agreed).content id = none from ha]
    exact h₁
  | some a =>
    rw [show d.draft.view (tier h.agreed).content id = some a from ha]
    refine ⟨?_, ?_, h₁.durable, h₁.keyed.bury id a, h₁.agreed, h₁.agreed'⟩
    · simp only [Option.elim, bury, h₁.volatile]
    · simp only [Option.elim, bury, h₁.tombstones]

/-- Commits meet the same conflicts, and the caches agree with the vault
afterwards. -/
theorem commit (h : d.Alike d') (hspare : d.draft.Spare) : Work.Alike Desk.commit d d' := by
  have hk' : d'.draft.Keyed := h.keyed.congr h.volatile h.tombstones
  have hspare' : d'.draft.Spare := by rw [Draft.Spare, h.volatile]; exact hspare
  have hbatch : d'.draft.batch = d.draft.batch := by
    simp only [Draft.batch, Draft.writes, h.volatile, h.tombstones]
  have hcurrent : d'.draft.Current d'.stored ↔ d.draft.Current d.stored := by
    simp only [Draft.Current, Draft.Pending, Draft.held, Draft.copy?, Draft.removed?, h.volatile,
      h.tombstones, stored, Shared.stored, h.durable]
  refine (commit_ends h.keyed hspare).mono ?_ ?_
  · rintro _ _ ⟨rfl, hcur, rfl⟩
    refine (commit_ends hk' hspare').mono ?_ ?_
    · rintro _ _ ⟨rfl, hcur', rfl⟩
      refine ⟨by simp only [Draft.receipt, hbatch], ?_, ?_, ?_, h.keyed.settle,
        agreed_published h.keyed hspare h.agreed hcur,
        agreed_published hk' hspare' h.agreed' hcur'⟩
      · simp only [published, Draft.settle, hbatch, h.volatile]
      · simp only [published, Draft.settle]
      · simp only [published, Shared.settle_durable, hbatch, stored, Shared.stored, h.durable]
    · rintro _ _ ⟨_, hstale, _⟩
      exact hstale (hcurrent.2 hcur)
  · rintro e _ ⟨hconf, hstale, rfl⟩
    refine (commit_ends hk' hspare').mono ?_ ?_
    · rintro _ _ ⟨_, hcur', _⟩
      exact hstale (hcurrent.1 hcur')
    · rintro e' _ ⟨hconf', _, rfl⟩
      rw [hbatch, h.durable, hconf] at hconf'
      cases hconf'
      exact ⟨rfl, h⟩

end Desk.Alike

/-- An errand has the same outcome at two desks that are alike. -/
theorem Errand.alike {d d' : Desk Vault} (h : d.Alike d') (errand : Errand)
    (hspare : errand = .commit → d.draft.Spare) : errand.run.Alike d d' := by
  cases errand with
  | load id => exact (h.load id).map _
  | update id amendment => exact (h.update? id amendment).map _
  | stage a =>
    refine (h.redrafted (f := (·.stage a)) (h.keyed.stage a) ?_ ?_).map fun _ => Answer.done
    · simp only [Draft.stage, h.volatile]
    · simp only [Draft.stage, h.tombstones]
  | delete id => exact (h.delete id).map fun _ => Answer.done
  | commit => exact (h.commit (hspare rfl)).map _
  | rollback =>
    exact (h.redrafted (f := Draft.rollback) (.of_empty rfl) rfl rfl).map fun _ => Answer.done
  | evict =>
    refine (h.redrafted (f := Draft.evictVolatile) h.keyed.evict ?_ h.tombstones).map
      fun _ => Answer.done
    simp only [Draft.evictVolatile, h.volatile]

/-! ## Offices that differ in their caches -/

namespace Office

/-- Two offices whose desks are alike. -/
def Alike (o o' : Office) : Prop := ∀ name, (o.desk name).Alike (o'.desk name)

variable {o o' : Office}

theorem draft_left (name other : String) (d : Desk Vault) :
    (o.left name d).draft other = if other = name then d.draft else o.draft other := by
  unfold draft left
  simp only [Table.get?_insert]
  split <;> rfl

theorem Alike.left (h : o.Alike o') (name : String) {d d' : Desk Vault} (hd : d.Alike d') :
    (o.left name d).Alike (o'.left name d') := by
  intro other
  unfold desk
  rw [draft_left, draft_left]
  split
  · exact hd
  · have hother := h other
    exact ⟨hother.volatile, hother.tombstones, hd.durable, hother.keyed, hd.agreed, hd.agreed'⟩

theorem Roomy.draft {events : List Event} (h : o.Roomy events) (name : String) :
    (o.draft name).Roomy := by
  have hall : ∀ d ∈ o.drafts.values, d.Roomy := by
    cases events with
    | nil => exact h
    | cons event events => exact h.1
  unfold Office.draft
  cases hd : o.drafts.get? name with
  | none => exact fun a ha => by cases ha
  | some d => exact hall d (Table.mem_values.2 ⟨name, hd⟩)

theorem Roomy.spare {events : List Event} (h : o.Roomy events) : o.Spare events := by
  induction events generalizing o with
  | nil => trivial
  | cons event events ih => exact ⟨fun name _ => (h.draft name).spare, ih h.2⟩

theorem Alike.outcome (h : o.Alike o') {name : String} {errand : Errand}
    (hspare : errand = .commit → (o.draft name).Spare) :
    (o'.outcome name errand).1 = (o.outcome name errand).1 ∧
      (o.outcome name errand).2.Alike (o'.outcome name errand).2 := by
  have hrun := errand.alike (h name) hspare
  unfold Work.Alike Work.Ends at hrun
  unfold Office.outcome
  cases hw : errand.run (o.desk name) <;> cases hw' : errand.run (o'.desk name) <;>
    simp only [hw, hw'] at hrun
  · exact ⟨congrArg Except.ok hrun.1, hrun.2⟩
  · exact ⟨congrArg Except.error hrun.1, hrun.2⟩

/-- An event is answered alike and leaves the offices alike. -/
theorem Alike.step (h : o.Alike o') {event : Event} {events : List Event}
    (hspare : o.Spare (event :: events)) :
    o'.answer event = o.answer event ∧ (o.step event).Alike (o'.step event) := by
  cases event with
  | errand name errand =>
    have hname : errand = .commit → (o.draft name).Spare := by
      rintro rfl
      exact hspare.1 name rfl
    obtain ⟨hanswer, hdesk⟩ := h.outcome hname
    exact ⟨congrArg some hanswer, h.left name hdesk⟩
  | wait ticks =>
    refine ⟨rfl, fun name => ?_⟩
    have hd := h name
    exact ⟨hd.volatile, hd.tombstones, hd.durable, hd.keyed, hd.agreed.later (Nat.le_add_right ..),
      hd.agreed'.later (Nat.le_add_right ..)⟩
  | clear =>
    refine ⟨rfl, fun name => ?_⟩
    have hd := h name
    exact ⟨hd.volatile, hd.tombstones, hd.durable, hd.keyed,
      .of_coherent hd.agreed.tidy (.of_empty rfl), .of_coherent hd.agreed'.tidy (.of_empty rfl)⟩

theorem Alike.play {events : List Event} (h : o.Alike o') (hspare : o.Spare events) :
    o'.answers events = o.answers events ∧ (o.play events).Alike (o'.play events) := by
  induction events generalizing o o' with
  | nil => exact ⟨rfl, h⟩
  | cons event events ih =>
    obtain ⟨hanswer, hstep⟩ := h.step hspare
    obtain ⟨hanswers, hplay⟩ := ih hstep hspare.2
    exact ⟨by rw [Office.answers, Office.answers, hanswer, hanswers], hplay⟩

/-- Whatever the lifetime and the capacity of the cache over a vault of clean
anchors under their own identities, every errand is answered as without a cache,
the vault holds the same and the drafts hold the same; and every live entry of
the cache is what the vault holds. -/
theorem cache_is_transparent (vault : Vault)
    (tidy : ∀ {id a}, vault.anchors.get? id = some a → a.id = id ∧ a.dirty = false)
    (ttl capacity : Nat) (events : List Event) (hroom : (opened vault ttl capacity).Roomy events) :
    let o := (opened vault ttl capacity).play events
    let plain := (opened vault 0 0).play events
    (opened vault ttl capacity).answers events = (opened vault 0 0).answers events ∧
      o.shared.durable = plain.shared.durable ∧
      (∀ name, (o.draft name).volatile = (plain.draft name).volatile ∧
        (o.draft name).tombstones = (plain.draft name).tombstones) ∧
      ∀ id e a, o.shared.cache.entries.get? id = some e →
        o.shared.cache.live o.shared.now e = true → e.anchor = some a →
        o.shared.durable.anchors.get? id = some a := by
  have hstart : (opened vault ttl capacity).Alike (opened vault 0 0) := fun name =>
    ⟨rfl, rfl, rfl, .of_empty rfl,
      .of_coherent tidy (.of_empty rfl), .of_coherent tidy (.of_empty rfl)⟩
  obtain ⟨hanswers, halike⟩ := hstart.play hroom.spare
  refine ⟨hanswers.symm, (halike "").durable.symm,
    fun name => ⟨(halike name).volatile.symm, (halike name).tombstones.symm⟩, ?_⟩
  intro id e a he hl ha
  exact ((halike "").agreed.served id e a he hl ha).1

/-- A node that one request removes and creates again, while others read it. -/
def revival : List Event :=
  let id : ObjectId := .node ⟨⟨1⟩⟩
  let node : Anchor := .ofNode ⟨⟨1⟩⟩ ⟨⟨⟨0⟩⟩⟩ (.isolated ⟨⟨2⟩⟩ Fields.empty)
  let shown : Amendment := ⟨fun a => { a with access := a.access.grant .read }, fun _ => rfl⟩
  [.errand "keeper" (.stage node), .errand "keeper" .commit, .errand "guest" (.load id),
    .errand "keeper" (.delete id), .errand "keeper" .commit, .errand "keeper" (.stage node),
    .errand "keeper" .commit, .errand "reader" (.update id shown), .wait 3,
    .errand "guest" .evict, .errand "guest" (.load id), .clear, .errand "reader" .commit]

theorem cache_is_transparent_to_revival : (opened Vault.empty 5 1).Roomy revival ∧
    (opened Vault.empty 5 1).answers revival = (opened Vault.empty 0 0).answers revival :=
  have hroom : (opened Vault.empty 5 1).Roomy revival := by decide
  ⟨hroom, (cache_is_transparent Vault.empty (fun ha => by cases ha) 5 1 revival hroom).1⟩

end Office

end Wayfarer
