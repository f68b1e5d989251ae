import Mathlib.Algebra.GroupWithZero.Nat
import Wayfarer.Proofs.Tenancy.Requests

/-!
# Sessions and requests in any order

In an `Assembly` any number of tenants work in any number of sessions at once.
In between, requests of other kinds are made: for new roots, and for walks.

* `Desk.Custom` is a condition on desks that operations, commits and whatever
  else happens at a desk keep. Sessions and walks keep it too
  (`Desk.Custom.attend`, `Desk.Custom.journey`).
* A `Custom` says it of drafts and tiers apart, and knows how what is said may
  grow, so that it also holds of sessions that wait while others work:
  `Custom.step` is about one move, `Custom.journal` about any number of them.
-/

namespace Wayfarer

section

variable {τ α β : Type} {w : EStateM Error τ α} {next : α → EStateM Error τ β} {s s' : τ}

theorem endOf_bind_of_ok {a : α} (h : w s = .ok a s') :
    endOf (w >>= next) s = endOf (next a) s' := by
  unfold endOf
  simp only [bind, EStateM.bind, h]

theorem endOf_bind_pure {f : α → β} : endOf (w >>= fun a => pure (f a)) s = endOf w s := by
  unfold endOf
  simp only [bind, EStateM.bind]
  cases w s <;> rfl

theorem endOf_bind_of_error {e : Error} (h : w s = .error e s') : endOf (w >>= next) s = s' := by
  unfold endOf
  simp only [bind, EStateM.bind, h]

end

namespace Realm

variable {σ : Type} {r : Realm σ} {root : RootId}

theorem rulebook_request {α : Type} (w : Work σ α) (r : Realm σ) :
    (endOf (request w) r).rulebook = r.rulebook := by
  unfold endOf request work
  cases w ⟨Draft.empty, r.shared⟩ <;> rfl

variable [Durable σ]

theorem session_ok {s : Session} {realm : Realm σ} (h : session root r = .ok s realm) :
    ∃ d, requireRoot (r.actor root) ⟨Draft.empty, r.shared⟩ = .ok () d ∧
      s = ⟨root, d.draft⟩ ∧ realm = { r with shared := d.shared } := by
  unfold session work at h
  cases hw : requireRoot (r.actor root) ⟨Draft.empty, r.shared⟩ with
  | error e d => simp [hw] at h
  | ok u d =>
    simp only [hw, EStateM.Result.ok.injEq] at h
    exact ⟨d, rfl, h.1.symm, h.2.symm⟩

theorem session_error {e : Error} {realm : Realm σ} (h : session root r = .error e realm) :
    ∃ d, requireRoot (r.actor root) ⟨Draft.empty, r.shared⟩ = .error e d ∧
      realm = { r with shared := d.shared } := by
  unfold session work at h
  cases hw : requireRoot (r.actor root) ⟨Draft.empty, r.shared⟩ with
  | ok u d => simp [hw] at h
  | error e' d =>
    simp only [hw, EStateM.Result.error.injEq] at h
    exact ⟨d, h.1 ▸ rfl, h.2.symm⟩

theorem rulebook_createRoot (tenant : String) (r : Realm σ) :
    (endOf (createRoot tenant) r).rulebook = r.rulebook := by
  rw [createRoot_eq]
  generalize RootId.ofTenant tenant = new
  rw [endOf_bind_pure, rulebook_request]

/-- No request changes the rulebook. -/
theorem rulebook_after (request : Request) : (r.after root request).rulebook = r.rulebook := by
  cases request with
  | createRoot tenant => exact rulebook_createRoot tenant r
  | session doings =>
    unfold after
    cases hs : session root r with
    | ok s realm =>
      obtain ⟨d, _, _, rfl⟩ := session_ok hs
      rfl
    | error e realm =>
      obtain ⟨d, _, rfl⟩ := session_error hs
      rfl
  | spawn conduct fuel request =>
    refine Eq.trans ?_ (rulebook_request (r.journey (r.semantics root conduct) fuel root request) r)
    simp only [after]
    unfold endOf spawn semantics
    rfl
  | wait millis => rw [after]

end Realm

/-! ## Attempts to commit -/

section

variable {σ : Type} {I allows : Desk σ → Prop} {permits vouches : Incident σ → Prop} {d : Desk σ}

/-- An attempt to commit keeps a condition if it does so wherever it is allowed
to end. -/
theorem Desk.attempt_ends {work : Work σ Receipt}
    (hallows : ∀ {before after}, permits (.commits before after) → allows after)
    (hwork : Work.Ends work d (fun _ d' => allows d' → I d') fun _ => I)
    (hx : ∀ x ∈ Desk.attempt work d, permits x) :
    I (endOf work d) ∧ ∀ x ∈ Desk.attempt work d, ∃ receipt d',
      work d = .ok receipt d' ∧ x = .commits d d' ∧ allows d' ∧ I d' := by
  unfold Desk.attempt at hx ⊢
  unfold endOf
  cases hw : work d with
  | error e d' => exact ⟨hwork.error hw, fun _ hx => by cases hx⟩
  | ok receipt d' =>
    simp only [hw, List.mem_singleton, forall_eq] at hx ⊢
    have hd := hwork.ok hw (hallows hx)
    exact ⟨hd, receipt, d', rfl, rfl, hallows hx, hd⟩

/-- A request for a root keeps a condition if putting a root down and committing
it do. -/
theorem Realm.founding_ends [Durable σ] {root : RootId}
    (hinsert : Work.Ends (Actor.insertRoot root) d (fun _ => I) fun _ => I)
    (hcommit : ∀ {d}, I d → (∀ x ∈ Desk.attempt Desk.commit d, permits x) →
      I (endOf Desk.commit d) ∧ ∀ x ∈ Desk.attempt Desk.commit d, vouches x)
    (hx : ∀ x ∈ Realm.founding root d, permits x) :
    I (endOf (Realm.foundRoot root) d) ∧ ∀ x ∈ Realm.founding root d, vouches x := by
  unfold Realm.founding at hx ⊢
  unfold Realm.foundRoot
  cases hw : Actor.insertRoot root d with
  | error e d' =>
    rw [endOf_bind_of_error hw]
    exact ⟨hinsert.error hw, fun _ hx => by cases hx⟩
  | ok made d' =>
    have h' := hinsert.ok hw
    rw [endOf_bind_of_ok hw]
    cases made with
    | false => exact ⟨h', fun _ hx => by cases hx⟩
    | true =>
      simp only [hw] at hx ⊢
      obtain ⟨hend, hnoted⟩ := hcommit h' hx
      refine ⟨?_, hnoted⟩
      rw [if_pos trivial, endOf_bind_pure]
      exact hend

end

/-! ## Assemblies -/

/-- A realm with the sessions that are open in it. -/
structure Assembly (σ : Type) where
  realm : Realm σ
  sessions : Table String Session

/-- What happens in an assembly. -/
inductive Move
  /-- Opens a session; one of the same name is dropped. -/
  | enter (name : String) (root : RootId)
  | attend (name : String) (doing : Doing)
  | leave (name : String)
  | ask (root : RootId) (request : Request)

/-- A commit noted between two desks: at the end of a request, what no root
leads to is removed first, and what is committed is what is left at the desk
`ready`. -/
def Desk.Commits {σ : Type} [Durable σ] (before ready : Desk σ) (receipt : Receipt)
    (after : Desk σ) : Prop :=
  (ready = before ∨ ∃ root gone, Desk.evictUnreachable root before = .ok gone ready) ∧
    Desk.commit ready = .ok receipt after

theorem Desk.commits_of_conclude {σ : Type} [Durable σ] {before after : Desk σ} {root : RootId}
    {receipt : Receipt} (h : Desk.conclude root before = .ok receipt after) :
    ∃ ready, before.Commits ready receipt after := by
  simp only [Desk.conclude, bind, EStateM.bind] at h
  cases hevict : Desk.evictUnreachable root before with
  | error e d => simp [hevict] at h
  | ok gone ready =>
    rw [hevict] at h
    exact ⟨ready, .inr ⟨root, gone, hevict⟩, h⟩

namespace Assembly

variable {σ : Type} [Durable σ]

/-- An assembly to which nobody has come yet. -/
def begin (realm : Realm σ) : Assembly σ := ⟨realm, Table.empty⟩

/-- The desk of a session. -/
def desk (w : Assembly σ) (s : Session) : Desk σ := ⟨s.draft, w.realm.shared⟩

/-- The assembly after a move. -/
def step (w : Assembly σ) : Move → Assembly σ
  | .enter name root =>
    match Realm.session root w.realm with
    | .ok s realm => ⟨realm, w.sessions.insert name s⟩
    | .error _ realm => { w with realm := realm }
  | .attend name doing =>
    match w.sessions.get? name with
    | none => w
    | some s =>
      let d := endOf (doing.run (w.realm.actor s.root)) (w.desk s)
      ⟨{ w.realm with shared := d.shared }, w.sessions.insert name { s with draft := d.draft }⟩
  | .leave name => { w with sessions := w.sessions.erase name }
  | .ask root request => { w with realm := w.realm.after root request }

/-- What is noted of a move. -/
def note (w : Assembly σ) : Move → List (Incident σ)
  | .enter _ _ => []
  | .attend name doing =>
    match w.sessions.get? name with
    | none => []
    | some s => doing.journal (w.realm.actor s.root) (w.desk s)
  | .leave _ => []
  | .ask root request => w.realm.note root request

/-- The assembly after some moves, one after another. -/
def play (w : Assembly σ) (moves : List Move) : Assembly σ := moves.foldl step w

/-- What is noted of them. -/
def journal (w : Assembly σ) : List Move → List (Incident σ)
  | [] => []
  | move :: rest => w.note move ++ (w.step move).journal rest

theorem play_append (w : Assembly σ) (before after : List Move) :
    w.play (before ++ after) = (w.play before).play after := List.foldl_append ..

theorem journal_append (w : Assembly σ) (before after : List Move) :
    w.journal (before ++ after) = w.journal before ++ (w.play before).journal after := by
  induction before generalizing w with
  | nil => rfl
  | cons move rest ih =>
    rw [List.cons_append, journal, ih, journal, List.append_assoc]
    rfl

end Assembly

/-! ## Counting identities -/

namespace Incident

variable {σ : Type}

/-- How many identities something noted may mint at most. -/
def mints : Incident σ → Nat
  | .performs _ op => op.mints
  | .commits _ _ => 0

/-- How many identities everything noted may mint at most. -/
def totalMints (noted : List (Incident σ)) : Nat := (noted.map mints).sum

theorem totalMints_concat (before after : List (Incident σ)) :
    totalMints (before ++ after) = totalMints after + totalMints before := by
  simp only [totalMints, List.map_append, List.sum_append]
  omega

theorem totalMints_append (n : Nat) (before after : List (Incident σ)) :
    n + totalMints (before ++ after) = n + totalMints after + totalMints before := by
  rw [totalMints_concat, Nat.add_assoc]

theorem totalMints_performs (ops : List (Desk σ × Op)) :
    totalMints (ops.map fun x => .performs x.1 x.2) = Op.totalMints ops := by
  simp only [totalMints, Op.totalMints, List.map_map]
  rfl

theorem totalMints_attempt {α : Type} (w : Work σ α) (d : Desk σ) :
    totalMints (Desk.attempt w d) = 0 := by
  unfold Desk.attempt
  split <;> rfl

theorem totalMints_founding [Durable σ] (root : RootId) (d : Desk σ) :
    totalMints (Realm.founding root d) = 0 := by
  unfold Realm.founding
  split
  · exact totalMints_attempt _ _
  · rfl
  · rfl

end Incident

theorem Op.totalMints_cons {σ : Type} (n : Nat) (x : Desk σ × Op) (rest : List (Desk σ × Op)) :
    n + Op.totalMints (x :: rest) = n + Op.totalMints rest + x.2.mints := by
  simp only [Op.totalMints, List.map_cons, List.sum_cons]
  omega

/-! ## At one desk -/

/-- A condition on desks that depends on how many identities may still be
minted. Whatever is done at a desk keeps it, as long as it is permitted, and
then something can be said of everything noted. -/
structure Desk.Custom {σ : Type} [Durable σ] (rules : Rulebook)
    (permits vouches : Incident σ → Prop) (I : Nat → Desk σ → Prop) : Prop where
  browses : ∀ n, Desk.Browses (I n)
  shared : ∀ {n d now cancelled notes}, I n d → d.shared.now ≤ now →
    I n { d with shared := { d.shared with now := now, cancelled := cancelled, notes := notes } }
  rollback : ∀ {n d}, I n d → I n { d with draft := d.draft.rollback }
  evict : ∀ {n d}, I n d → I n { d with draft := d.draft.evictVolatile }
  performs : ∀ {n d} {actor : Actor} {op : Op}, actor.rulebook = rules → I (n + op.mints) d →
    permits (.performs d op) →
      Work.Ends (op.run actor) d (fun _ => I n) (fun _ => I n) ∧ vouches (.performs d op)
  concludes : ∀ {n d} (root : RootId), I n d →
    (∀ x ∈ Desk.attempt (Desk.conclude root) d, permits x) →
      I n (endOf (Desk.conclude root) d) ∧ ∀ x ∈ Desk.attempt (Desk.conclude root) d, vouches x

namespace Desk.Custom

variable {σ : Type} [Durable σ] {rules : Rulebook} {permits vouches : Incident σ → Prop}
  {I : Nat → Desk σ → Prop} {n : Nat} {d : Desk σ} {actor : Actor}
  (hc : Desk.Custom rules permits vouches I)

include hc

theorem deed {v : Visit σ} (h : I n v.desk) (deed : Deed) : I n (deed.apply v).desk := by
  cases deed with
  | visit | report | setField | disengage | skip => exact h
  | pause millis => exact hc.shared h (Nat.le_add_right ..)
  | cancel | note => exact hc.shared h (Nat.le_refl _)

/-- What an ability does. -/
theorem conduct {α : Type} (c : Conduct α) (ha : actor.rulebook = rules) (stop : Stop) {v : Visit σ}
    (h : I (n + Op.totalMints (c.ops actor stop v)) v.desk)
    (hops : ∀ x ∈ c.ops actor stop v, permits (.performs x.1 x.2)) :
    I n (endOf (c.run actor stop) v).desk ∧
      ∀ x ∈ c.ops actor stop v, vouches (.performs x.1 x.2) := by
  induction c generalizing v with
  | done a => exact ⟨h, fun _ hx => by cases hx⟩
  | fail e => exact ⟨h, fun _ hx => by cases hx⟩
  | look next ih => exact ih _ _ h hops
  | «recall» next ih => exact ih _ h hops
  | act deed next ih => exact ih (hc.deed h deed) hops
  | graph op next ih =>
    rw [Conduct.ops, List.forall_mem_cons] at hops ⊢
    rw [Conduct.ops, Op.totalMints_cons] at h
    obtain ⟨hop, hvouch⟩ := hc.performs ha h hops.1
    unfold endOf Conduct.run
    cases hrun : op.run actor v.desk with
    | ok a d =>
      simp only [hrun] at hop hops ⊢
      obtain ⟨hend, hrest⟩ := ih (.ok a) (v := { v with desk := d }) (hop.ok hrun) hops.2
      exact ⟨hend, hvouch, hrest⟩
    | error e d =>
      simp only [hrun] at hop hops ⊢
      obtain ⟨hend, hrest⟩ := ih (.error e) (v := { v with desk := d }) (hop.error hrun) hops.2
      exact ⟨hend, hvouch, hrest⟩

theorem affords {w : Walk σ} {conduct : Ability → Conduct Unit} (ha : actor.rulebook = rules)
    (hw : w.semantics = fun ability stop => (conduct ability).run actor stop) :
    w.Affords (fun ability stop => (conduct ability).ops actor stop) I
      (fun x => permits (.performs x.1 x.2)) fun x => vouches (.performs x.1 x.2) := by
  refine ⟨fun n place origin => Walk.arrive_keeps (hc.browses n) w.actor place origin, ?_⟩
  intro n ability stop v h hops
  rw [hw]
  exact hc.conduct _ ha stop h hops

/-- What a tenant does in a session. -/
theorem doing (ha : actor.rulebook = rules) (doing : Doing)
    (h : I (n + Incident.totalMints (doing.journal actor d)) d)
    (hx : ∀ x ∈ doing.journal actor d, permits x) :
    I n (endOf (doing.run actor) d) ∧ ∀ x ∈ doing.journal actor d, vouches x := by
  cases doing with
  | perform op =>
    obtain ⟨hop, hvouch⟩ := hc.performs ha h (hx _ (List.mem_singleton_self _))
    refine ⟨Work.Ends.endOf (hop.andThen fun _ _ hd => .pure hd),
      fun x hx => ?_⟩
    rw [List.mem_singleton.1 hx]
    exact hvouch
  | commit =>
    simp only [Doing.journal, Incident.totalMints_attempt, Nat.add_zero] at h
    obtain ⟨hend, hvouch⟩ := hc.concludes actor.requester h hx
    refine ⟨?_, hvouch⟩
    rw [Doing.run, endOf_bind_pure]
    exact hend
  | rollback => exact ⟨hc.rollback h, fun _ hx => by cases hx⟩
  | evict => exact ⟨hc.evict h, fun _ hx => by cases hx⟩
  | wait millis => exact ⟨hc.shared h (Nat.le_add_right ..), fun _ hx => by cases hx⟩

/-- A whole session. -/
theorem attend (ha : actor.rulebook = rules) (doings : List Doing)
    (h : I (n + Incident.totalMints (d.journal actor doings)) d)
    (hx : ∀ x ∈ d.journal actor doings, permits x) :
    I n (d.attend actor doings) ∧ ∀ x ∈ d.journal actor doings, vouches x := by
  induction doings generalizing d with
  | nil => exact ⟨h, fun _ hx => by cases hx⟩
  | cons doing rest ih =>
    rw [Desk.journal, Incident.totalMints_append] at h
    rw [Desk.journal, List.forall_mem_append] at hx ⊢
    obtain ⟨hnext, hfirst⟩ := hc.doing ha doing h hx.1
    obtain ⟨hend, hrest⟩ := ih hnext hx.2
    exact ⟨hend, hfirst, hrest⟩

theorem requireRoot (actor : Actor) : Work.Keeps (I n) (Realm.requireRoot actor) := by
  refine .bind ((hc.browses n).readableType actor _) fun found => ?_
  cases found with
  | none => exact .throw _
  | some type => exact .pure _

theorem depart (r : Realm σ) (root : RootId) (semantics : Semantics σ) (request : SpawnRequest)
    (h : I n d) :
    Work.Ends (r.depart semantics root request) d
      (fun departure d' => I n d' ∧ departure.walk.semantics = semantics) fun _ => I n := by
  refine (hc.requireRoot (r.actor root) d h).andThen fun _ d h => ?_
  cases r.rulebook.types.resolveKind .walker request.traveler with
  | none => exact .throw h
  | some type =>
    refine (Desk.Browses.fillFields _ _ _ d h).andThen fun _ d h => ?_
    refine .bind (((hc.browses n).check _ _ _ d h).andThen fun _ d h => .pure ?_)
    exact .bind (.get (.pure ⟨h, rfl⟩))

/-- A whole walk, from its departure to the commit at its end. -/
theorem journey {r : Realm σ} {root : RootId} (hr : r.rulebook = rules)
    {conduct : Ability → Conduct Unit} {fuel : Nat} {request : SpawnRequest}
    (h : I (n + Incident.totalMints (r.walkJournal root conduct fuel request d)) d)
    (hx : ∀ x ∈ r.walkJournal root conduct fuel request d, permits x) :
    I n (endOf (r.journey (r.semantics root conduct) fuel root request) d) ∧
      ∀ x ∈ r.walkJournal root conduct fuel request d, vouches x := by
  rw [Realm.journey_eq]
  have hdepart := hc.depart r root (r.semantics root conduct) request h
  unfold Realm.walkJournal at h hx hdepart ⊢
  cases hw : r.depart (r.semantics root conduct) root request d with
  | error e d' =>
    simp only [hw] at hdepart ⊢
    rw [endOf_bind_of_error hw]
    exact ⟨hdepart.error hw, fun _ hx => by cases hx⟩
  | ok departure d' =>
    simp only [hw, Incident.totalMints_append, Incident.totalMints_performs,
      List.forall_mem_append, List.forall_mem_map] at hdepart hx ⊢
    obtain ⟨h', hsem⟩ := hdepart.ok hw
    rw [endOf_bind_of_ok hw]
    obtain ⟨hrun, hops⟩ :=
      (hc.affords (show (r.actor root).rulebook = rules from hr) hsem).run h' hx.1
    cases hwalk : departure.walk.run fuel departure.traveler departure.start d' with
    | error e d'' =>
      simp only [hwalk] at hrun ⊢
      rw [endOf_bind_of_error hwalk]
      exact ⟨hrun.error hwalk, hops, fun _ hx => by cases hx⟩
    | ok journey d'' =>
      simp only [hwalk] at hrun hx ⊢
      rw [endOf_bind_of_ok hwalk]
      have hdesk := hrun.ok hwalk
      -- a walk commits on arrival only if its journey says so
      unfold Realm.arrival
      split
      · rename_i hcommits
        rw [if_pos hcommits] at hx
        rw [if_pos hcommits, Incident.totalMints_attempt] at hdesk
        obtain ⟨hend, hvouch⟩ := hc.concludes root hdesk hx.2
        refine ⟨?_, hops, hvouch⟩
        rw [endOf_bind_pure]
        exact hend
      · rename_i hcommits
        rw [if_neg hcommits] at hdesk
        exact ⟨hdesk, hops, fun _ hx => by cases hx⟩

end Desk.Custom

/-! ## At many desks -/

/-- Conditions on drafts and on shared tiers. Both are relative to what is known
so far; when more becomes known, drafts stay good. -/
structure Custom (σ : Type) where
  Known : Type
  le : Known → Known → Prop
  refl : ∀ k, le k k
  trans : ∀ {k k' k''}, le k k' → le k' k'' → le k k''
  drafts : Known → Draft → Prop
  tiers : Known → Nat → Shared σ → Prop
  mono : ∀ {k k' d}, le k k' → drafts k d → drafts k' d
  blank : ∀ k, drafts k Draft.empty

namespace Custom

variable {σ : Type}

/-- A good desk, when no less is known than at some time before. -/
def Desks (c : Custom σ) (k : c.Known) (n : Nat) (d : Desk σ) : Prop :=
  ∃ k', c.le k k' ∧ c.drafts k' d.draft ∧ c.tiers k' n d.shared

/-- Conditions for which nothing has to become known. -/
def fixed (drafts : Draft → Prop) (tiers : Nat → Shared σ → Prop) (blank : drafts Draft.empty) :
    Custom σ where
  Known := Unit
  le _ _ := True
  refl _ := trivial
  trans _ _ := trivial
  drafts _ := drafts
  tiers _ := tiers
  mono _ h := h
  blank _ := blank

theorem desks_fixed {drafts : Draft → Prop} {tiers : Nat → Shared σ → Prop}
    {blank : drafts Draft.empty} {k : Unit} {n : Nat} {d : Desk σ} :
    (fixed drafts tiers blank).Desks k n d ↔ drafts d.draft ∧ tiers n d.shared :=
  ⟨fun ⟨_, _, h⟩ => h, fun h => ⟨k, trivial, h⟩⟩

variable [Durable σ]

/-- Founding a root keeps desks good. -/
def Founds (c : Custom σ) (permits vouches : Incident σ → Prop) : Prop :=
  ∀ {k n d} (root : RootId), c.Desks k n d → (∀ x ∈ Realm.founding root d, permits x) →
    c.Desks k n (endOf (Realm.foundRoot root) d) ∧ ∀ x ∈ Realm.founding root d, vouches x

/-- An assembly with good tiers and good drafts. -/
structure Assemblies (c : Custom σ) (rules : Rulebook) (k : c.Known) (n : Nat) (w : Assembly σ) :
    Prop where
  rules : w.realm.rulebook = rules
  tiers : c.tiers k n w.realm.shared
  drafts : ∀ {name s}, w.sessions.get? name = some s → c.drafts k s.draft

variable {c : Custom σ} {rules : Rulebook} {permits vouches : Incident σ → Prop} {k : c.Known}
  {n : Nat}

omit [Durable σ] in
theorem Desks.of_empty {s : Shared σ} (h : c.tiers k n s) : c.Desks k n ⟨Draft.empty, s⟩ :=
  ⟨k, c.refl k, c.blank k, h⟩

section

variable (hc : ∀ k, Desk.Custom rules permits vouches (c.Desks k))

include hc

/-- A request leaves the shared tiers good. -/
theorem asked {r : Realm σ} {root : RootId} (request : Request) (hr : r.rulebook = rules)
    (hf : ∀ tenant, request = .createRoot tenant → c.Founds permits vouches)
    (h : c.tiers k (n + Incident.totalMints (r.note root request)) r.shared)
    (hx : ∀ x ∈ r.note root request, permits x) :
    (∃ k', c.le k k' ∧ c.tiers k' n (r.after root request).shared) ∧
      ∀ x ∈ r.note root request, vouches x := by
  have htiers : ∀ {d : Desk σ}, c.Desks k n d → ∃ k', c.le k k' ∧ c.tiers k' n d.shared :=
    fun ⟨k', hle, _, h⟩ => ⟨k', hle, h⟩
  have hd := Desks.of_empty h
  cases request with
  | createRoot tenant =>
    simp only [Realm.note, Incident.totalMints_founding, Nat.add_zero] at hd
    obtain ⟨hend, hvouch⟩ := hf tenant rfl (RootId.ofTenant tenant) hd hx
    refine ⟨?_, hvouch⟩
    rw [Realm.shared_createRoot]
    exact htiers hend
  | session doings =>
    have hopen := (hc k).requireRoot (r.actor root) _ hd
    unfold Realm.note Realm.after at *
    cases hw : Realm.session root r with
    | error e realm =>
      obtain ⟨d, hd, rfl⟩ := Realm.session_error hw
      simp only [hw] at hopen ⊢
      exact ⟨htiers (hopen.error hd), fun _ hx => by cases hx⟩
    | ok s realm =>
      obtain ⟨d, hd, rfl, rfl⟩ := Realm.session_ok hw
      simp only [hw] at hopen hx ⊢
      obtain ⟨hend, hvouch⟩ := (hc k).attend (show (r.actor root).rulebook = rules from hr) doings
        (hopen.ok hd) hx
      exact ⟨htiers hend, hvouch⟩
  | spawn conduct fuel request =>
    obtain ⟨hend, hvouch⟩ := (hc k).journey hr hd hx
    refine ⟨?_, hvouch⟩
    rw [Realm.shared_spawn]
    exact htiers hend
  | wait millis =>
    exact ⟨htiers ((hc k).shared hd (Nat.le_add_right ..)), fun _ hx => by cases hx⟩

/-- Every move keeps an assembly good. -/
theorem step {w : Assembly σ} (move : Move)
    (hf : ∀ root tenant, move = .ask root (.createRoot tenant) → c.Founds permits vouches)
    (h : c.Assemblies rules k (n + Incident.totalMints (w.note move)) w)
    (hx : ∀ x ∈ w.note move, permits x) :
    (∃ k', c.le k k' ∧ c.Assemblies rules k' n (w.step move)) ∧ ∀ x ∈ w.note move, vouches x := by
  -- a move works at one desk; the drafts of the others stay good however far it goes
  have hothers : ∀ {k'}, c.le k k' → ∀ {name s}, w.sessions.get? name = some s →
      c.drafts k' s.draft := fun hle _ _ hget => c.mono hle (h.drafts hget)
  have hdrafts : ∀ {k'}, c.le k k' → ∀ {name : String} {s : Session}, c.drafts k' s.draft →
      ∀ {name' s'}, (w.sessions.insert name s).get? name' = some s' → c.drafts k' s'.draft := by
    intro k' hle name s hnew name' s' hget
    rw [Table.get?_insert] at hget
    split at hget
    · cases hget
      exact hnew
    · exact hothers hle hget
  cases move with
  | enter name root =>
    refine ⟨?_, fun _ hx => by cases hx⟩
    have hopen := (hc k).requireRoot (n := n) (w.realm.actor root) ⟨Draft.empty, w.realm.shared⟩
      (.of_empty h.tiers)
    cases hw : Realm.session root w.realm with
    | error e realm =>
      obtain ⟨d, hd, rfl⟩ := Realm.session_error hw
      obtain ⟨k', hle, _, htiers⟩ := hopen.error hd
      simp only [Assembly.step, hw]
      exact ⟨k', hle, h.rules, htiers, hothers hle⟩
    | ok s realm =>
      obtain ⟨d, hd, rfl, rfl⟩ := Realm.session_ok hw
      obtain ⟨k', hle, hdraft, htiers⟩ := hopen.ok hd
      simp only [Assembly.step, hw]
      exact ⟨k', hle, h.rules, htiers, hdrafts hle hdraft⟩
  | attend name doing =>
    cases hget : w.sessions.get? name with
    | none =>
      simp only [Assembly.step, Assembly.note, hget] at h ⊢
      exact ⟨⟨k, c.refl k, h⟩, fun _ hx => by cases hx⟩
    | some s =>
      simp only [Assembly.step, Assembly.note, hget] at h hx ⊢
      have hdesk : c.Desks k _ (w.desk s) := ⟨k, c.refl k, h.drafts hget, h.tiers⟩
      obtain ⟨⟨k', hle, hdraft, htiers⟩, hvouch⟩ :=
        (hc k).doing (show (w.realm.actor s.root).rulebook = rules from h.rules) doing hdesk hx
      exact ⟨⟨k', hle, h.rules, htiers, hdrafts hle hdraft⟩, hvouch⟩
  | leave name =>
    refine ⟨⟨k, c.refl k, h.rules, h.tiers, fun hget => ?_⟩, fun _ hx => by cases hx⟩
    rw [Assembly.step, Table.get?_erase] at hget
    split at hget
    · cases hget
    · exact h.drafts hget
  | ask root request =>
    obtain ⟨⟨k', hle, htiers⟩, hvouch⟩ := asked hc request h.rules
      (fun tenant ht => hf root tenant (ht ▸ rfl)) h.tiers hx
    refine ⟨⟨k', hle, ?_, htiers, hothers hle⟩, hvouch⟩
    rw [Assembly.step, Realm.rulebook_after]
    exact h.rules

/-- So does every list of moves, and everything noted in its course can be
vouched for. -/
theorem journal {w : Assembly σ} (moves : List Move) (hf : c.Founds permits vouches)
    (h : c.Assemblies rules k (n + Incident.totalMints (w.journal moves)) w)
    (hx : ∀ x ∈ w.journal moves, permits x) :
    (∃ k', c.le k k' ∧ c.Assemblies rules k' n (w.play moves)) ∧
      ∀ x ∈ w.journal moves, vouches x := by
  induction moves generalizing w k with
  | nil => exact ⟨⟨k, c.refl k, h⟩, fun _ hx => by cases hx⟩
  | cons move rest ih =>
    rw [Assembly.journal, Incident.totalMints_append] at h
    rw [Assembly.journal, List.forall_mem_append] at hx ⊢
    obtain ⟨⟨k₁, hle₁, hnext⟩, hfirst⟩ := step hc move (fun _ _ _ => hf) h hx.1
    obtain ⟨⟨k₂, hle₂, hend⟩, hrest⟩ := ih hnext hx.2
    exact ⟨⟨k₂, c.trans hle₁ hle₂, hend⟩, hfirst, hrest⟩

end

end Custom

end Wayfarer
