import Wayfarer.Proofs.Failing
import Wayfarer.Proofs.Tenancy.Reachable
import Wayfarer.Proofs.Walking.Atomicity

/-!
# Sessions in which operations fail

Whatever sessions and walks do, every desk stays `Sturdy`: its anchors are kept
under their own identities and are of the kind that these say, and its cache
serves nothing but what is stored. That is all that `Desk.run_ends` asks for, so
at every desk reached an operation that edits no object fails without a trace
(`failures_leave_no_trace`).
-/

namespace Wayfarer

/-! ## Sturdy desks -/

/-- An anchor under its own identity, of the kind that this says, whose version
is not the last. -/
structure Anchor.Sturdy (id : ObjectId) (a : Anchor) : Prop where
  own : a.id = id
  fits : a.Fits
  room : a.version + 1 ≠ 0

/-- A draft of sturdy copies. -/
structure Draft.Sturdy (d : Draft) : Prop where
  keyed : d.Keyed
  copies : ∀ {id a}, d.copy? id = some a → a.Sturdy id

section

variable {σ : Type} [Durable σ]

/-- Shared tiers with sturdy anchors, and with a cache that serves nothing
else. -/
structure Store.Sturdy (store : Store σ) (s : Shared σ) : Prop where
  holds : store.holds s.durable
  coherent : s.Coherent (store.content s.durable)
  stored : ∀ {id a}, (store.content s.durable).get? id = some a → a.Sturdy id

/-- A desk of sturdy anchors. -/
structure Desk.Sturdy (store : Store σ) (d : Desk σ) : Prop where
  draft : d.draft.Sturdy
  tiers : store.Sturdy d.shared

variable {store : Store σ} {rules : Rulebook} {d d' : Desk σ} {id : ObjectId} {a b : Anchor}
  {m : NodeId}

namespace Anchor.Sturdy

/-- There is a version after that of a new anchor. -/
theorem room_of_new : (0 : UInt64) + 1 ≠ 0 := by decide

theorem ofNode (m : NodeId) (owner : RootId) (record : NodeRecord) :
    (Anchor.ofNode m owner record).Sturdy (.node m) :=
  ⟨rfl, ⟨fun _ => ⟨record, rfl⟩, fun hid => ObjectId.noConfusion hid⟩, room_of_new⟩

theorem ofEdge (e : EdgeId) (owner : RootId) (record : EdgeRecord) :
    (Anchor.ofEdge e owner record).Sturdy (.edge e) :=
  ⟨rfl, ⟨fun hid => ObjectId.noConfusion hid, fun _ => ⟨record, rfl⟩⟩, room_of_new⟩

/-- Sturdiness is about the identity, the version, and the kind of the
content. -/
theorem change (h : a.Sturdy id) (hid : b.id = a.id) (hversion : b.version = a.version)
    (hnode : b.node?.isSome = a.node?.isSome) (hedge : b.edge?.isSome = a.edge?.isSome) :
    b.Sturdy id := by
  refine ⟨hid.trans h.own, ⟨fun hm => ?_, fun he => ?_⟩, hversion ▸ h.room⟩
  · obtain ⟨r, hr⟩ := h.fits.node (hid ▸ hm)
    exact Option.isSome_iff_exists.1 (hnode.trans (by rw [hr]; rfl))
  · obtain ⟨r, hr⟩ := h.fits.edge (hid ▸ he)
    exact Option.isSome_iff_exists.1 (hedge.trans (by rw [hr]; rfl))

theorem mapNode (h : a.Sturdy id) (f : NodeRecord → NodeRecord) :
    ({ a.mapNode f with dirty := true } : Anchor).Sturdy id := by
  refine h.change (a.mapNode_id f) (a.mapNode_version f) ?_ ?_ <;>
    cases hb : a.body <;> simp [Anchor.mapNode, Anchor.node?, Anchor.edge?, hb]

theorem withFields (h : a.Sturdy id) (f : Fields) :
    ({ a.withFields f with dirty := true } : Anchor).Sturdy id := by
  refine h.change (a.withFields_id f) ?_ ?_ ?_ <;>
    cases hb : a.body <;> simp [Anchor.withFields, Anchor.node?, Anchor.edge?, hb]

/-- What a commit writes is sturdy if there is a version after it. -/
theorem committed (h : a.Sturdy id) (hroom : a.committed.version + 1 ≠ 0) : a.committed.Sturdy id :=
  ⟨h.own, ⟨h.fits.node, h.fits.edge⟩, hroom⟩

end Anchor.Sturdy

theorem Draft.Sturdy.of_empty {d : Draft} (h : d.volatile = Table.empty) : d.Sturdy := by
  refine ⟨.of_empty h, fun ha => ?_⟩
  rw [Draft.copy?, h] at ha
  cases ha

theorem Draft.Sturdy.evict {d : Draft} (h : d.Sturdy) : d.evictVolatile.Sturdy :=
  ⟨h.keyed.evict, fun ha => h.copies (Draft.copy?_of_evictVolatile ha).1⟩

namespace Desk.Sturdy

theorem over_tier (h : d.Sturdy store) : d.Over (store.tier h.tiers.holds) :=
  ⟨⟨h.tiers.holds, rfl⟩, h.tiers.coherent⟩

/-- What is seen is a copy of the request's own or is stored. -/
theorem seen (h : d.Sturdy store) (ha : d.draft.view (store.content d.shared.durable) id = some a) :
    a.Sturdy id := by
  obtain ⟨-, hcopy | ⟨-, hstored⟩⟩ := Draft.view_eq_some ha
  · exact h.draft.copies hcopy
  · exact h.tiers.stored hstored

theorem nodal (h : d.Sturdy store) : d.Nodal (store.tier h.tiers.holds) := fun _ _ ha =>
  (h.seen ha).fits.node (h.seen ha).own

theorem fetched (h : d.Sturdy store) (hf : Fetched (store.tier h.tiers.holds) d d') :
    d'.Sturdy store := by
  obtain ⟨hholds, hsame⟩ := hf.above.holds
  have hcoherent := hf.above.coherent
  refine ⟨⟨h.draft.keyed.filled (store.tier h.tiers.holds).tidy hf.toFilled, fun {id a} ha => ?_⟩,
    hholds, ?_, fun ha => h.tiers.stored (hsame ▸ ha)⟩
  · rcases hf.volatile id with hold | ⟨-, -, b, hb, hnew⟩
    · exact h.draft.copies (hold.symm.trans ha)
    · rw [show d'.draft.copy? id = some b from hnew] at ha
      exact Option.some.inj ha ▸ h.tiers.stored hb
  · rw [hsame]
    exact hcoherent

theorem minted (h : d.Sturdy store) : d.minted.Sturdy store :=
  ⟨h.draft, h.tiers.holds, h.tiers.coherent.congr rfl rfl, h.tiers.stored⟩

theorem staged (h : d.Sturdy store) (ha : a.Sturdy a.id) : (d.staged a).Sturdy store := by
  refine ⟨⟨h.draft.keyed.stage a, fun hb => ?_⟩, h.tiers⟩
  rw [Desk.staged, Draft.stage_copy?] at hb
  split at hb
  · rename_i hid
    cases hb
    subst hid
    exact ha.change rfl rfl rfl rfl
  · exact h.draft.copies hb

theorem change (h : d.Sturdy store) (ha : d.draft.copy? id = some a) (hb : b.Sturdy id) :
    (d.keep id b).Sturdy store := by
  refine ⟨⟨h.draft.keyed.keep hb.own (h.draft.keyed.removed?_of_copy? ha), fun hc => ?_⟩, h.tiers⟩
  rw [Desk.keep_copy?] at hc
  split at hc
  · rename_i hid
    cases hc
    exact hid ▸ hb
  · exact h.draft.copies hc

theorem bury (h : d.Sturdy store) (id : ObjectId) (a : Anchor) : (d.bury id a).Sturdy store := by
  refine ⟨⟨h.draft.keyed.bury id a, fun hb => ?_⟩, h.tiers⟩
  rw [Desk.bury_copy?] at hb
  split at hb
  · cases hb
  · exact h.draft.copies hb

end Desk.Sturdy

/-! ## Operations -/

/-- Work that reads keeps a desk sturdy. -/
theorem Desk.Sturdy.reads {α : Type} {w : Work σ α} (hw : Desk.Reads w) :
    Work.Keeps (Desk.Sturdy store) w := fun _ h =>
  (hw.fetched h.over_tier).mono (fun _ _ hf => h.fetched hf) fun _ _ hf => h.fetched hf

theorem Desk.Sturdy.strokes (store : Store σ) (rules : Rulebook) :
    Strokes rules Terms.any (fun _ => True) fun _ => Desk.Sturdy store where
  browses _ id := Desk.Sturdy.reads (.load id)
  fewer h := h
  keyed h := h.draft.keyed
  node _ _ h := h.minted.staged (.ofNode _ _ _)
  edge _ _ _ _ h := h.minted.staged (.ofEdge _ _ _)
  pair _ _ _ _ h := (h.minted.minted.staged (.ofEdge _ _ _)).staged (.ofEdge _ _ _)
  adjust h ha _ := h.change ha ((h.draft.copies ha).mapNode _)
  access _ h ha := h.change ha ((h.draft.copies ha).change rfl rfl rfl rfl)
  field _ h _ _ _ _ hb := h.change hb ((h.draft.copies hb).withFields _)
  bury h _ _ := h.bury _ _
  seen _ _ _ := trivial

/-! ## Commits -/

/-- Everything stored could be committed once more. -/
def Store.Roomy (store : Store σ) (s : σ) : Prop :=
  ∀ a ∈ (store.content s).values, a.version + 1 ≠ 0

instance (store : Store σ) (s : σ) : Decidable (store.Roomy s) :=
  inferInstanceAs (Decidable (∀ a ∈ (store.content s).values, a.version + 1 ≠ 0))

/-- Something noted, after which versions have not run out. -/
def Incident.Roomy (store : Store σ) : Incident σ → Prop
  | .performs _ _ => True
  | .commits _ after => store.Roomy after.shared.durable

instance (store : Store σ) : DecidablePred (Incident.Roomy store)
  | .performs _ _ => isTrue trivial
  | .commits _ after => inferInstanceAs (Decidable (store.Roomy after.shared.durable))

namespace Desk.Sturdy

theorem commit (h : d.Sturdy store) :
    Work.Ends Desk.commit d (fun _ d' => store.Roomy d'.shared.durable → d'.Sturdy store)
      fun _ d' => d'.Sturdy store := by
  have hkeyed := h.draft.keyed
  refine (commit_store h.over_tier).mono ?_ ?_
  · rintro _ d' ⟨s', hs', hcontent, hmet, rfl⟩ hroomy
    rw [Shared.settle_durable] at hroomy
    -- what was written is stored now, so its version is not the last one
    have hroom : ∀ {id a}, (Vault.overlay (store.content d.shared.durable) d.draft.batch).get? id =
        some a → a.version + 1 ≠ 0 := fun ha =>
      hroomy _ (hcontent ▸ Table.mem_values.2 ⟨_, ha⟩)
    have hwritten : ∀ {id a}, d.draft.copy? id = some a → a.dirty = true → a.committed.Sturdy id :=
      fun ha hdirty => (h.draft.copies ha).committed (hroom (hkeyed.overlay_of_dirty ha hdirty))
    have hcurrent : d.draft.Current (store.content d.shared.durable) := by
      refine (hkeyed.check_iff (fun a ha _ => ?_) _).1 hmet
      obtain ⟨id, hcopy⟩ := Table.mem_values.1 ha
      exact (h.draft.copies hcopy).room
    -- the copies, the tier, the cache, and what is stored
    refine ⟨⟨hkeyed.settle, fun hb => ?_⟩, ?_, ?_, ?_⟩
    · rcases hkeyed.settle_copy? hb with ⟨a, ha, hdirty, rfl⟩ | ⟨hold, -⟩
      · exact hwritten ha hdirty
      · exact h.draft.copies hold
    · rw [Shared.settle_durable]
      exact hs'
    · rw [Shared.settle_durable, hcontent]
      refine hkeyed.coherent_settle (h.tiers.coherent.congr rfl rfl)
        (fun {id a p} ha hdirty hp => ?_)
        fun hv hp => ?_
      · rw [hkeyed.version_of_dirty hcurrent ha hdirty hp]
        exact UInt64.lt_add_one (h.draft.copies ha).room
      · exact UInt64.le_of_eq (hcurrent.version_of_removed hv hp)
    · intro id b hb
      rw [Shared.settle_durable, hcontent] at hb
      rcases hkeyed.of_overlay hb with ⟨a, ha, hdirty, rfl⟩ | ⟨-, hold⟩
      · exact hwritten ha hdirty
      · exact h.tiers.stored hold
  · rintro _ d' ⟨hdraft, habove⟩
    obtain ⟨hholds, hsame⟩ := habove.holds
    exact ⟨hdraft ▸ h.draft, hholds, hsame ▸ habove.coherent, fun ha => h.tiers.stored (hsame ▸ ha)⟩

theorem conclude (h : d.Sturdy store) (root : RootId) :
    Work.Ends (Desk.conclude root) d (fun _ d' => store.Roomy d'.shared.durable → d'.Sturdy store)
      fun _ d' => d'.Sturdy store :=
  .bind (((strokes store default).evictUnreachable (n := 0) root d h).mono (fun _ _ h' => h'.commit)
    fun _ _ h' => h')

theorem insertRoot (root : RootId) : Work.Keeps (Desk.Sturdy store) (Actor.insertRoot root) := by
  refine .bind (reads (.load _)) fun found => ?_
  cases found with
  | some a => exact .pure _
  | none => exact .bind (fun d h => .modify (h.staged (.ofNode _ _ _))) fun _ => .pure _

end Desk.Sturdy

/-! ## One move after another -/

/-- What is said of something noted: the desk of every operation is sturdy. -/
def Incident.Sturdy (store : Store σ) : Incident σ → Prop
  | .performs d _ => d.Sturdy store
  | .commits _ _ => True

/-- Sturdiness as a custom. The mint does not matter to it. -/
def Store.sturdy (store : Store σ) : Custom σ :=
  .fixed Draft.Sturdy (fun _ => store.Sturdy) (.of_empty rfl)

namespace Store

theorem desks_sturdy {k : store.sturdy.Known} {n : Nat} :
    store.sturdy.Desks k n d ↔ d.Sturdy store :=
  Custom.desks_fixed.trans ⟨fun h => ⟨h.1, h.2⟩, fun h => ⟨h.draft, h.tiers⟩⟩

/-- An attempt to commit, by itself or at the end of a request. -/
theorem attempt_sturdy {work : Work σ Receipt}
    (hwork : Work.Ends work d (fun _ d' => store.Roomy d'.shared.durable → d'.Sturdy store)
      fun _ d' => d'.Sturdy store)
    (hx : ∀ x ∈ Desk.attempt work d, x.Roomy store) :
    (endOf work d).Sturdy store ∧ ∀ x ∈ Desk.attempt work d, x.Sturdy store := by
  obtain ⟨hend, hnoted⟩ := Desk.attempt_ends (fun h => h) hwork hx
  refine ⟨hend, fun x hmem => ?_⟩
  obtain ⟨_, _, _, rfl, -⟩ := hnoted x hmem
  trivial

theorem custom_sturdy (store : Store σ) (rules : Rulebook) (k : store.sturdy.Known) :
    Desk.Custom rules (Incident.Roomy store) (Incident.Sturdy store) (store.sturdy.Desks k) := by
  have hsame : store.sturdy.Desks k = fun _ => Desk.Sturdy store :=
    funext fun n => funext fun d => propext desks_sturdy
  rw [hsame]
  refine ⟨fun _ id => Desk.Sturdy.reads (.load id), ?_, ?_, ?_, ?_, ?_⟩
  · rintro - d now cancelled notes h hle
    exact ⟨h.draft, h.tiers.holds, h.tiers.coherent.later rfl hle, h.tiers.stored⟩
  · exact fun h => ⟨.of_empty rfl, h.tiers⟩
  · exact fun h => ⟨h.draft.evict, h.tiers⟩
  · exact fun {n d actor op} ha h _ =>
      ⟨(Desk.Sturdy.strokes store rules).run (n := n) ha op.meets_any h, h⟩
  · exact fun root h hx => attempt_sturdy (h.conclude root) hx

theorem founds_sturdy (store : Store σ) :
    store.sturdy.Founds (Incident.Roomy store) (Incident.Sturdy store) := by
  intro k n d root h hx
  rw [desks_sturdy] at h ⊢
  exact Realm.founding_ends (Desk.Sturdy.insertRoot root d h)
    (fun hd hx => attempt_sturdy hd.commit hx) hx

/-- Every desk reached is sturdy: those of open sessions, and those of all
operations so far. -/
theorem reached_sturdy (store : Store σ) {config : RealmConfig} {realm : Realm σ} {s s' : σ}
    (hs : store.holds s) (hstored : ∀ {id a}, (store.content s).get? id = some a → a.Sturdy id)
    (hstart : Realm.start rules config s = .ok realm s') (moves : List Move)
    (hroom : ∀ x ∈ (Assembly.begin realm).journal moves, x.Roomy store) :
    (∀ {name session}, ((Assembly.begin realm).play moves).sessions.get? name = some session →
      (((Assembly.begin realm).play moves).desk session).Sturdy store) ∧
    ∀ x ∈ (Assembly.begin realm).journal moves, x.Sturdy store := by
  -- at the start nothing is cached, and nobody has a session
  have hbegin : store.Sturdy realm.shared := by
    unfold Realm.start at hstart
    split at hstart
    · cases hstart
    rename_i epoch there hepoch
    obtain ⟨hgood, hsame⟩ := store.begun hs hepoch
    cases hstart
    exact ⟨hgood, .of_empty rfl, fun ha => hstored (hsame ▸ ha)⟩
  obtain ⟨⟨k, -, hend⟩, hnoted⟩ := Custom.journal (n := 0) (k := ()) (c := store.sturdy)
    (store.custom_sturdy realm.rulebook) moves store.founds_sturdy
    (w := Assembly.begin realm) ⟨rfl, hbegin, fun hget => by cases hget⟩ hroom
  exact ⟨fun hget => ⟨hend.drafts hget, hend.tiers⟩, hnoted⟩

end Store

/-! ## No trace of a failure -/

/-- If an operation fails at a desk, it has changed nothing there. -/
def Desk.Recoils (d : Desk σ) (actor : Actor) (op : Op) : Prop :=
  ∀ {e d'}, op.run actor d = .error e d' → d.Untouched d'

theorem Desk.Sturdy.recoils (h : d.Sturdy store) {op : Op} (hop : op.edit? = none) (actor : Actor) :
    d.Recoils actor op := fun hrun =>
  ((run_ends hop h.over_tier h.nodal actor).error hrun).untouched h.over_tier

end

/-- Whatever sessions and walks do, in any order, an operation that creates,
connects, disconnects or destroys objects, or reads them, leaves no trace when
it fails. The same changes await a commit as before, every object is seen as
before, and no identity was minted. This holds in every session that is open,
and at every operation carried out so far, those of abilities included. No
version number has run out; the durable tier was empty at the start, or held
sturdy anchors only. -/
theorem failures_leave_no_trace {σ : Type} [Durable σ] (store : Store σ) {rules : Rulebook}
    {config : RealmConfig} {realm : Realm σ} {s s' : σ} (hs : store.holds s)
    (hstored : ∀ {id a}, (store.content s).get? id = some a → a.Sturdy id)
    (hstart : Realm.start rules config s = .ok realm s') (moves : List Move)
    (hroom : ∀ x ∈ (Assembly.begin realm).journal moves, x.Roomy store) {op : Op}
    (hop : op.edit? = none) :
    (∀ {name session}, ((Assembly.begin realm).play moves).sessions.get? name = some session →
      (((Assembly.begin realm).play moves).desk session).Recoils
        (((Assembly.begin realm).play moves).realm.actor session.root) op) ∧
    ∀ {d}, .performs d op ∈ (Assembly.begin realm).journal moves → ∀ actor, d.Recoils actor op := by
  obtain ⟨hsessions, hnoted⟩ := store.reached_sturdy hs hstored hstart moves hroom
  exact ⟨fun hget => (hsessions hget).recoils hop _, fun hx => (hnoted _ hx).recoils hop⟩

section Stale

/-- Two sessions of one tenant. One links the root to a new place and commits,
then destroys the place and commits again. In between the other session has
loaded the place. -/
def Travel.staleSession : List Move :=
  let root := RootId.ofTenant "acme"
  let place := unsettled.shared.mint.nextNode
  [.ask root (.createRoot "acme"), .enter "early" root, .enter "late" root,
    .attend "early" (.perform (.createLinked root.node "place" Fields.empty plainEdgeName)),
    .attend "early" .commit, .attend "late" (.perform (.node place)),
    .attend "early" (.perform (.destroy place)), .attend "early" .commit]

/-- The other session links the place, which it still sees, to the root twice
and to a node that is not there. -/
def Travel.linksOfStale : Op :=
  let root := RootId.ofTenant "acme"
  .connectMany unsettled.shared.mint.nextNode [root.node, root.node, default] plainEdgeName
    Fields.empty false

/-- Whether a session of an assembly fails at an operation because an object is
missing. -/
def Assembly.misses (w : Assembly Vault) (name : String) (op : Op) : Bool :=
  match w.sessions.get? name with
  | none => false
  | some s =>
    match op.run (w.realm.actor s.root) (w.desk s) with
    | .error (.notFound _) _ => true
    | _ => false

theorem Assembly.of_misses {w : Assembly Vault} {name : String} {op : Op}
    (h : w.misses name op = true) : ∃ s id d, w.sessions.get? name = some s ∧
      op.run (w.realm.actor s.root) (w.desk s) = .error (.notFound id) d := by
  unfold misses at h
  split at h
  · cases h
  · rename_i s hs
    split at h
    · rename_i id d hrun
      exact ⟨s, id, d, hs, hrun⟩
    · cases h

theorem Travel.staleSession_done :
    (∀ x ∈ (Assembly.begin unsettled).journal staleSession, x.Roomy Store.vault) ∧
      ((Assembly.begin unsettled).play staleSession).misses "late" linksOfStale = true := by
  decide +kernel

/-- None of the links was made. -/
theorem failed_links_leave_no_trace : ∃ s id d,
    ((Assembly.begin Travel.unsettled).play Travel.staleSession).sessions.get? "late" = some s ∧
    Travel.linksOfStale.run
      (((Assembly.begin Travel.unsettled).play Travel.staleSession).realm.actor s.root)
      (((Assembly.begin Travel.unsettled).play Travel.staleSession).desk s) =
        .error (.notFound id) d ∧
    (((Assembly.begin Travel.unsettled).play Travel.staleSession).desk s).Untouched d := by
  obtain ⟨hroom, hmisses⟩ := Travel.staleSession_done
  obtain ⟨s, id, d, hs, hrun⟩ := Assembly.of_misses hmisses
  refine ⟨s, id, d, hs, hrun, ?_⟩
  exact (failures_leave_no_trace Store.vault (fun ha => by cases ha) (fun ha => by cases ha)
    Travel.unsettled_starts Travel.staleSession hroom rfl).1 hs hrun

end Stale

end Wayfarer
