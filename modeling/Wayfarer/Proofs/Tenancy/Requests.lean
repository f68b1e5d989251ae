import Wayfarer.Proofs.Concourse.Acts
import Wayfarer.Proofs.Tenancy.Walks

/-!
# Requests of one tenant

In a realm in which only one tenant works, every request begins and ends with a
durable tier of which the tenant's root leads to everything (`Store.Rests`), and
that is so too whenever a request has committed (`Store.Hosts`). For each kind
of request there is one lemma, which also says of every commit noted that it
leaves what it should (`Store.Reconciles`); `Store.Rests.journal` is the
induction over the requests.
-/

namespace Wayfarer

variable {σ : Type} [Durable σ]

namespace Realm

omit [Durable σ] in
theorem shared_request {α : Type} (w : Work σ α) (r : Realm σ) :
    (endOf (request w) r).shared = (endOf w ⟨Draft.empty, r.shared⟩).shared := by
  unfold endOf request work
  cases w ⟨Draft.empty, r.shared⟩ <;> rfl

theorem shared_createRoot (r : Realm σ) (root : RootId) (tenant : String) :
    (r.after root (.createRoot tenant)).shared =
      (endOf (foundRoot (RootId.ofTenant tenant)) ⟨Draft.empty, r.shared⟩).shared := by
  rw [← shared_request]
  simp only [after, createRoot_eq]
  generalize RootId.ofTenant tenant = new
  unfold endOf
  simp only [bind, EStateM.bind]
  cases request (foundRoot new) r <;> rfl

theorem shared_spawn (r : Realm σ) (root : RootId) (conduct : Ability → Conduct Unit) (fuel : Nat)
    (request : SpawnRequest) : (r.after root (.spawn conduct fuel request)).shared =
      (endOf (r.journey (r.semantics root conduct) fuel root request)
        ⟨Draft.empty, r.shared⟩).shared := by
  rw [← shared_request]
  simp only [after]
  unfold endOf spawn semantics
  rfl

end Realm

namespace Store

/-- After a commit the tenant's root leads to every stored node that is no root,
along the edges that the stored nodes list as outgoing, and every node that it
led to in what the request saw is stored. -/
structure Reconciles (store : Store σ) (root : RootId) (before after : Desk σ) : Prop where
  reached : ∀ {n a}, store.stored after.shared.durable (.node n) = some a → a.type ≠ rootType →
    Relation.ReflTransGen (store.stored after.shared.durable).Offers root.node n
  kept : ∀ {n a}, store.view before (.node n) = some a →
    Relation.ReflTransGen (store.view before).Offers root.node n →
      ∃ b, store.stored after.shared.durable (.node n) = some b

/-- What is taken for granted of something noted. -/
def Allows (store : Store σ) : Incident σ → Prop
  | .performs desk op => store.Admits desk op
  | .commits _ _ => True

/-- What follows of it. -/
def Vouches (store : Store σ) (root : RootId) : Incident σ → Prop
  | .performs _ _ => True
  | .commits before after => store.Reconciles root before after

/-- The shared tiers between two requests. -/
structure Rests (store : Store σ) (root : RootId) (s : Shared σ) : Prop where
  holds : store.holds s.durable
  settled : (store.tier holds).Settled root
  coherent : s.Coherent (store.content s.durable)

/-- A request of a tenant whose root is stored, between two operations. -/
def Hosts (store : Store σ) (root : RootId) (d : Desk σ) : Prop :=
  ∃ s, ∃ hs : store.holds s, (store.tier hs).Settled root ∧
    (∃ a, (store.tier hs).stored root = some a) ∧
    d.Attends (store.tier hs) root

variable {store : Store σ} {root : RootId} {s s' : σ} {hs : store.holds s} {hs' : store.holds s'}
  {d d' : Desk σ} {actor : Actor} {x : Incident σ}

theorem stored_of_over (h : d.Over (store.tier hs)) :
    store.stored d.shared.durable = (store.tier hs).stored := by
  unfold stored
  rw [h.holds.2]
  rfl

theorem view_of_over (h : d.Over (store.tier hs)) : store.view d = d.view (store.tier hs) := by
  unfold view
  rw [h.holds.2]
  rfl

/-- Whatever a request left, the tiers can rest if they hold what they held
before. -/
theorem rests_of_over (h : d.Over (store.tier hs)) (ht : (store.tier hs).Settled root) :
    store.Rests root d.shared := by
  have hsame : (store.tier h.holds.1).stored = (store.tier hs).stored := stored_of_over h
  refine ⟨h.holds.1, ⟨hsame ▸ ht.solitary, hsame ▸ ht.gathered, hsame ▸ ht.positive⟩, ?_⟩
  rw [h.holds.2]
  exact h.coherent

theorem Hosts.rests (h : store.Hosts root d) : store.Rests root d.shared := by
  obtain ⟨_, _, ht, _, hd⟩ := h
  exact rests_of_over hd.sane.above ht

/-- A commit reconciles if it leaves the tiers settled and stores what was
anchored. -/
theorem reconciles (ho : d.Over (store.tier hs)) (ho' : d'.Over (store.tier hs'))
    (ht' : (store.tier hs').Settled root)
    (hkept : ∀ {n a}, d.view (store.tier hs) (.node n) = some a →
      Relation.ReflTransGen (d.view (store.tier hs)).Offers root.node n →
        ∃ b, (store.tier hs').stored (.node n) = some b) :
    store.Reconciles root d d' := by
  refine ⟨fun hn hty => ?_, fun hn hpath => ?_⟩
  · rw [stored_of_over ho'] at hn ⊢
    rw [ht'.solitary.offers_eq]
    exact ht'.gathered hn hty
  · rw [view_of_over ho] at hn hpath
    rw [stored_of_over ho']
    exact hkept hn hpath

/-! ## Sessions -/

namespace Hosts

/-- The end of a request: if it commits, the commit reconciles. -/
theorem conclude (h : store.Hosts root d) :
    Work.Ends (Desk.conclude root) d
      (fun _ d' => store.Hosts root d' ∧ store.Reconciles root d d')
      fun _ d' => store.Hosts root d' := by
  obtain ⟨s, hs, ht, hroot, hd⟩ := h
  obtain ⟨a, ha⟩ := hd.home
  refine (hd.conclude ht).mono ?_ fun _ _ hd' => ⟨s, hs, ht, hroot, hd'⟩
  rintro _ d' ⟨s', hs', ht', hd', hkept⟩
  refine ⟨⟨s', hs', ht', hkept (.of_root ha (hd.solitary.home ha).1), hd'⟩,
    reconciles hd.sane.above hd'.sane.above ht' fun _ hpath => hkept ?_⟩
  rw [hd.solitary.offers_eq] at hpath
  exact hd.solitary.anchored_of_leads ha hpath

theorem attempt (h : store.Hosts root d) (hx : x ∈ Desk.attempt (Desk.conclude root) d) :
    store.Vouches root x := by
  unfold Desk.attempt at hx
  split at hx
  · rename_i hw
    rw [List.mem_singleton.1 hx]
    exact (h.conclude.ok hw).2
  · cases hx

/-- What a tenant does in a session. -/
theorem doing (h : store.Hosts root d) (ha : actor.requester = root) (doing : Doing)
    (hx : ∀ x ∈ doing.journal actor d, store.Allows x) :
    store.Hosts root (endOf (doing.run actor) d) ∧
      ∀ x ∈ doing.journal actor d, store.Vouches root x := by
  subst ha
  obtain ⟨s, hs, ht, hroot, hd⟩ := h
  cases doing with
  | perform op =>
    have hop := hd.admitted rfl (hx _ (List.mem_singleton_self _))
    refine ⟨Work.Ends.endOf (.bind (hop.mono (fun _ _ hd' => .pure ?_) fun _ _ hd' => ?_)), ?_⟩
    · exact ⟨s, hs, ht, hroot, hd'⟩
    · exact ⟨s, hs, ht, hroot, hd'⟩
    · rintro x hx
      rw [List.mem_singleton.1 hx]
      trivial
  | commit =>
    have h : store.Hosts actor.requester d := ⟨s, hs, ht, hroot, hd⟩
    exact ⟨Work.Ends.endOf (h.conclude.andThen fun _ _ hd' => .pure hd'.1),
      fun x hx => h.attempt hx⟩
  | rollback =>
    refine ⟨⟨s, hs, ht, hroot, ?_⟩, fun _ hx => by cases hx⟩
    exact ht.attends ⟨hd.sane.above.holds, hd.sane.above.coherent⟩ (.of_empty rfl)
      (fun ha => by cases ha) (fun _ => rfl) hroot
  | evict => exact ⟨⟨s, hs, ht, hroot, hd.evict⟩, fun _ hx => by cases hx⟩
  | wait millis => exact ⟨⟨s, hs, ht, hroot, hd.sleep millis⟩, fun _ hx => by cases hx⟩

/-- A whole session. -/
theorem attend (h : store.Hosts root d) (ha : actor.requester = root) (doings : List Doing)
    (hx : ∀ x ∈ d.journal actor doings, store.Allows x) :
    store.Hosts root (d.attend actor doings) ∧
      ∀ x ∈ d.journal actor doings, store.Vouches root x := by
  induction doings generalizing d with
  | nil => exact ⟨h, fun _ hx => by cases hx⟩
  | cons doing rest ih =>
    rw [Desk.journal, List.forall_mem_append] at hx ⊢
    obtain ⟨hnext, hfirst⟩ := h.doing ha doing hx.1
    obtain ⟨hend, hrest⟩ := ih hnext hx.2
    exact ⟨hend, hfirst, hrest⟩

/-- Reading leaves a request as it is. -/
theorem reads {α : Type} {w : Work σ α} (hw : Desk.Reads w) :
    Work.Keeps (store.Hosts root) w := by
  rintro d ⟨s, hs, ht, hroot, hd⟩
  exact (Desk.Attends.reads hw d hd).mono (fun _ _ hd' => ⟨s, hs, ht, hroot, hd'⟩)
    fun _ _ hd' => ⟨s, hs, ht, hroot, hd'⟩

end Hosts

/-! ## The beginning of a request -/

namespace Rests

variable {sh : Shared σ} {r : Realm σ}

theorem desk_over (h : store.Rests root sh) :
    (⟨Draft.empty, sh⟩ : Desk σ).Over (store.tier h.holds) :=
  ⟨⟨h.holds, rfl⟩, h.coherent⟩

theorem later (h : store.Rests root sh) {now : Instant} (hle : sh.now ≤ now) :
    store.Rests root { sh with now := now } :=
  ⟨h.holds, h.settled, h.coherent.later rfl hle⟩

/-- A request that has done nothing but read holds copies of what is stored. -/
theorem copies (h : store.Rests root sh)
    (hf : Desk.Fetched (store.tier h.holds) ⟨Draft.empty, sh⟩ d) {id : ObjectId} {a : Anchor}
    (ha : d.draft.copy? id = some a) : (store.tier h.holds).stored id = some a := by
  rcases hf.volatile id with hv | ⟨_, _, b, hb, hv⟩
  · cases (show d.draft.copy? id = none from hv).symm.trans ha
  · cases hv.symm.trans ha
    exact hb

theorem cleared (h : store.Rests root sh)
    (hf : Desk.Fetched (store.tier h.holds) ⟨Draft.empty, sh⟩ d) (id : ObjectId) :
    d.draft.removed? id = none := by
  rw [Draft.removed?, hf.tombstones]
  rfl

theorem attends (h : store.Rests root sh)
    (hf : Desk.Fetched (store.tier h.holds) ⟨Draft.empty, sh⟩ d)
    (hroot : ∃ a, (store.tier h.holds).stored root = some a) : store.Hosts root d := by
  have hk : d.draft.Keyed :=
    Draft.Keyed.filled (.of_empty rfl) (store.tier h.holds).tidy hf.toFilled
  exact ⟨_, h.holds, h.settled, hroot,
    h.settled.attends hf.above hk (h.copies hf) (h.cleared hf) hroot⟩

/-- A request is taken up only if the tenant's root is stored. -/
theorem requireRoot (h : store.Rests root sh) (actor : Actor) (ha : actor.requester = root) :
    Work.Ends (Realm.requireRoot actor) ⟨Draft.empty, sh⟩ (fun _ d => store.Hosts root d)
      fun _ d => store.Rests root d.shared := by
  subst ha
  have hview : (⟨Draft.empty, sh⟩ : Desk σ).view (store.tier h.holds) =
      (store.tier h.holds).stored :=
    Desk.view_of_copies (fun ha => by cases ha) fun _ => rfl
  refine .bind (.bind (((Desk.Fetched.refl h.desk_over).load _).surely.andThen ?_))
  rintro found d ⟨hfound, _, hf⟩
  refine .pure (.pure ?_)
  rw [hview] at hfound
  cases found with
  | none => exact .throw (rests_of_over hf.above h.settled)
  | some a =>
    simp only [Option.filter_some]
    split
    · exact .pure (h.attends hf ⟨_, hfound.symm⟩)
    · exact .throw (rests_of_over hf.above h.settled)

/-! ## Walks -/

theorem depart (h : store.Rests root r.shared) (semantics : Semantics σ) (request : SpawnRequest) :
    Work.Ends (r.depart semantics root request) ⟨Draft.empty, r.shared⟩
      (fun departure d => store.Hosts root d ∧ departure.walk.semantics = semantics)
      fun _ d => store.Rests root d.shared := by
  refine (h.requireRoot (r.actor root) rfl).andThen fun _ d hd => ?_
  cases r.rulebook.types.resolveKind .walker request.traveler with
  | none => exact .throw hd.rests
  | some type =>
    refine .bind ((Hosts.reads (.fillFields _ _ _) d hd).mono (fun _ d hd => ?_)
      fun _ _ he => he.rests)
    refine .bind ((Hosts.reads (.bind (.check _ _ _) fun _ => .pure _) d hd).mono (fun _ d hd => ?_)
      fun _ _ he => he.rests)
    exact .bind (.get (.pure ⟨hd, rfl⟩))

/-- A whole walk, from its departure to the commit at its end. -/
theorem journey (h : store.Rests root r.shared) {conduct : Ability → Conduct Unit} {fuel : Nat}
    {request : SpawnRequest}
    (hx : ∀ x ∈ r.walkJournal root conduct fuel request ⟨Draft.empty, r.shared⟩, store.Allows x) :
    Work.Ends (r.journey (r.semantics root conduct) fuel root request) ⟨Draft.empty, r.shared⟩
        (fun _ d => store.Rests root d.shared) (fun _ d => store.Rests root d.shared) ∧
      ∀ x ∈ r.walkJournal root conduct fuel request ⟨Draft.empty, r.shared⟩,
        store.Vouches root x := by
  rw [Realm.journey_eq]
  unfold Realm.walkJournal at hx ⊢
  have hdepart := h.depart (r.semantics root conduct) request
  cases hw : r.depart (r.semantics root conduct) root request ⟨Draft.empty, r.shared⟩ with
  | error e d =>
    exact ⟨.bind (.of_error hw (hdepart.error hw)), fun _ hx => by cases hx⟩
  | ok departure d =>
    obtain ⟨⟨s, hs, ht, hroot, hd⟩, hsem⟩ := hdepart.ok hw
    simp only [hw, List.forall_mem_append, List.forall_mem_map] at hx ⊢
    have hrun := (Desk.Attends.minds (r.actor root) rfl hsem).carries.run hd hx.1
    refine ⟨.bind (.of_ok hw (.bind (hrun.mono (fun journey d hd => ?_) fun _ d hd => ?_))),
      fun _ _ => trivial, ?_⟩
    · have hhosts : store.Hosts root d := ⟨s, hs, ht, hroot, hd⟩
      unfold Realm.arrival
      split
      · exact .bind (hhosts.conclude.mono (fun _ _ hd => .pure hd.1.rests) fun _ _ hd => hd.rests)
      · exact .pure hhosts.rests
    · exact rests_of_over hd.sane.above ht
    · cases hwalk : departure.walk.run fuel departure.traveler departure.start d with
      | error e d => exact fun _ hx => by cases hx
      | ok journey d =>
        have hhosts : store.Hosts root d := ⟨s, hs, ht, hroot, hrun.ok hwalk⟩
        simp only
        split
        · exact fun x hx => hhosts.attempt hx
        · exact fun _ hx => by cases hx

/-! ## New roots -/

/-- Somebody's root is there already, or is put into the draft as the only
change. -/
theorem insertRoot (h : store.Rests root sh) (new : RootId) :
    Work.Ends (Actor.insertRoot new) ⟨Draft.empty, sh⟩ (fun made d =>
        (made = false ∧ d.Over (store.tier h.holds)) ∨ (made = true ∧ d.Sane (store.tier h.holds) ∧
          d.draft.Abreast (store.content sh.durable) ∧
          (d.view (store.tier h.holds)).Solitary root ∧
            (d.view (store.tier h.holds)).Gathered root))
      fun _ _ => False := by
  have hview : (⟨Draft.empty, sh⟩ : Desk σ).view (store.tier h.holds) =
      (store.tier h.holds).stored :=
    Desk.view_of_copies (fun ha => by cases ha) fun _ => rfl
  refine ((Desk.Fetched.refl h.desk_over).load _).andThen ?_
  rintro found d ⟨hfound, _, hf⟩
  rw [hview] at hfound
  cases found with
  | some a => exact .pure (.inl ⟨rfl, hf.above⟩)
  | none =>
    have hnone : (store.tier h.holds).stored new = none := hfound.symm
    have hk : d.draft.Keyed :=
      Draft.Keyed.filled (.of_empty rfl) (store.tier h.holds).tidy hf.toFilled
    have hseen : d.view (store.tier h.holds) = (store.tier h.holds).stored :=
      hf.same_view.trans hview
    have hsane : d.Sane (store.tier h.holds) := ⟨hf.above, hk, fun ha hz => by
      rw [hseen] at ha
      exact absurd hz (h.settled.positive ha)⟩
    have hunknown : ¬ d.Knows (store.tier h.holds) new := by
      rintro ((⟨a, ha⟩ | ⟨v, hv⟩) | ⟨a, ha⟩)
      · cases hnone.symm.trans (h.copies hf ha)
      · cases (h.cleared hf _).symm.trans hv
      · cases hnone.symm.trans ha
    have hroot : ∀ {r : NodeRecord}, r.type = rootType → (∀ p, r.edgesAt p = []) →
        ((d.staged (.ofNode new.node new r)).view (store.tier h.holds)).Solitary root ∧
          ((d.staged (.ofNode new.node new r)).view (store.tier h.holds)).Gathered root := by
      intro r hty hempty
      rw [Desk.view_staged, hseen]
      exact ⟨h.settled.solitary.putRoot hnone rfl hempty hty rfl rfl,
        View.Gathered.putRoot (a := (Anchor.ofNode new.node new r).clean) h.settled.gathered hty⟩
    refine .bind (.modify (.pure (.inr ⟨rfl, hsane.staged hunknown,
      (Draft.Abreast.of_copies (h.copies hf) (h.cleared hf)).stage rfl, ?_⟩)))
    exact hroot rfl fun p => by cases p <;> rfl

/-- The commit of a new root. -/
theorem commit (h : store.Rests root sh) (hs : d.Sane (store.tier h.holds))
    (hb : d.draft.Abreast (store.content sh.durable))
    (hsol : (d.view (store.tier h.holds)).Solitary root)
    (hg : (d.view (store.tier h.holds)).Gathered root) :
    Work.Ends Desk.commit d
      (fun _ d' => store.Rests root d'.shared ∧ store.Reconciles root d d')
      fun _ d' => store.Rests root d'.shared := by
  refine (hs.commit hb h.settled.positive).mono ?_ fun _ _ he => rests_of_over he.2 h.settled
  rintro _ d' ⟨s', hs', hd⟩
  have ht' := hd.settled hsol hg
  refine ⟨rests_of_over hd.above ht', reconciles hs.above hd.above ht' fun ha _ => ?_⟩
  obtain ⟨b, hb, _⟩ := hd.same.seen ha
  exact ⟨b, hb⟩

/-- A whole request for somebody's root. -/
theorem found (h : store.Rests root sh) (new : RootId) :
    store.Rests root (endOf (Realm.foundRoot new) ⟨Draft.empty, sh⟩).shared ∧
      ∀ x ∈ Realm.founding new ⟨Draft.empty, sh⟩, store.Vouches root x := by
  have hinsert := h.insertRoot new
  refine ⟨Work.Ends.endOf (I := fun d => store.Rests root d.shared)
    (hinsert.surely.andThen ?_), ?_⟩
  · rintro made d (⟨rfl, ho⟩ | ⟨rfl, hs, hb, hsol, hg⟩)
    · exact .pure (rests_of_over ho h.settled)
    · exact (h.commit hs hb hsol hg).andThen fun _ _ hd => .pure hd.1
  · intro x hx
    unfold Realm.founding at hx
    split at hx
    · rename_i d hw
      rcases hinsert.ok hw with ⟨hfalse, _⟩ | ⟨_, hs, hb, hsol, hg⟩
      · cases hfalse
      unfold Desk.attempt at hx
      split at hx
      · rename_i hcommit
        rw [List.mem_singleton.1 hx]
        exact ((h.commit hs hb hsol hg).ok hcommit).2
      · cases hx
    · cases hx
    · cases hx

/-! ## One request after another -/

/-- Every request leaves the tiers settled, and its commits reconcile. -/
theorem note (h : store.Rests root r.shared) (request : Request)
    (hx : ∀ x ∈ r.note root request, store.Allows x) :
    store.Rests root (r.after root request).shared ∧
      ∀ x ∈ r.note root request, store.Vouches root x := by
  cases request with
  | createRoot tenant =>
    have hfound := h.found (RootId.ofTenant tenant)
    refine ⟨?_, hfound.2⟩
    rw [Realm.shared_createRoot]
    exact hfound.1
  | session doings =>
    have hopen := h.requireRoot (r.actor root) rfl
    unfold Realm.note Realm.after Realm.session Realm.work at *
    cases hw : Realm.requireRoot (r.actor root) ⟨Draft.empty, r.shared⟩ with
    | error e d =>
      exact ⟨hopen.error hw, fun _ hx => by cases hx⟩
    | ok u d =>
      simp only [hw] at hx ⊢
      obtain ⟨hend, hvouch⟩ :=
        (hopen.ok hw).attend (show (r.actor root).requester = root from rfl) doings hx
      exact ⟨hend.rests, hvouch⟩
  | spawn conduct fuel request =>
    obtain ⟨hends, hvouch⟩ := h.journey hx
    refine ⟨?_, hvouch⟩
    rw [Realm.shared_spawn]
    exact Work.Ends.endOf (I := fun d => store.Rests root d.shared) hends
  | wait millis =>
    exact ⟨h.later (Nat.le_add_right r.shared.now (millis * ticksPerMilli)),
      fun _ hx => by cases hx⟩

/-- So does every list of requests. -/
theorem journal (h : store.Rests root r.shared) (requests : List Request)
    (hx : ∀ x ∈ r.journal root requests, store.Allows x) :
    store.Rests root (r.play root requests).shared ∧
      ∀ x ∈ r.journal root requests, store.Vouches root x := by
  induction requests generalizing r with
  | nil => exact ⟨h, fun _ hx => by cases hx⟩
  | cons request rest ih =>
    rw [Realm.journal, List.forall_mem_append] at hx ⊢
    obtain ⟨hnext, hfirst⟩ := h.note request hx.1
    obtain ⟨hend, hrest⟩ := ih hnext hx.2
    exact ⟨hend, hfirst, hrest⟩

/-- A realm starts with the tiers at rest. -/
theorem start {durable durable' : σ} {rulebook : Rulebook} {config : RealmConfig} {realm : Realm σ}
    (hstart : Realm.start rulebook config durable = .ok realm durable')
    (hs : store.holds durable) (ht : (store.tier hs).Settled root) :
    store.Rests root realm.shared := by
  unfold Realm.start at hstart
  cases hepoch : Durable.nextEpoch durable with
  | error e s => simp [hepoch] at hstart
  | ok epoch s =>
    simp only [hepoch, EStateM.Result.ok.injEq] at hstart
    obtain ⟨rfl, rfl⟩ := hstart
    obtain ⟨hs', hsame⟩ := store.begun hs hepoch
    have hover : (⟨Draft.empty, ⟨s, Cache.new config.cacheTtl.toNat config.cacheCapacity.toNat,
        Mint.new config.idSeed epoch, 0, Table.empty, Table.empty⟩⟩ : Desk σ).Over
          (store.tier hs) :=
      ⟨⟨hs', hsame⟩, .of_empty rfl⟩
    exact rests_of_over hover ht

end Rests

end Store

end Wayfarer
