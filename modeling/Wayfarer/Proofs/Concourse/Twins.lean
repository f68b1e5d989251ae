import Wayfarer.Proofs.Concourse.Committed
import Wayfarer.Proofs.Concourse.Sessions
import Wayfarer.Proofs.Twins.Operations

/-!
# Twins among many sessions

The halves of an undirected link never come apart, whatever any number of
sessions do and in whatever order: `twins_never_diverge`. Two invariants lead
there.

* `Concourse.Even`: in every session's draft, changed halves of links go
  together, and the halves that were ever committed at one version are alike.
  Every act keeps it (`Orderly.even`).
* `Draft.UpToDate`: a session that starts with no edges, and during which nobody
  else gets a commit through, holds every edge at the version at which it is
  stored (`Orderly.upToDate`). Otherwise a session may see one half as it was
  before somebody's commit, and the other one as it is now.
-/

namespace Wayfarer

variable {rulebook : Rulebook} {config : RealmConfig} {vault vault' : Vault} {realm : Realm Vault}
  {roots : ObjectId → Prop} {n m : Nat} {past past' : Anchor → Prop} {w : Concourse}
  {act : Act} {acts : List Act} {name : String} {s s' : Session} {d : Desk Vault}

/-- A concourse in which the halves of links go together, in the vault and in
every session. -/
structure Concourse.Even (past : Anchor → Prop) (w : Concourse) : Prop where
  twinned : Twinned (Draft.empty.setting past w.stored fun _ => False).WasEdge
  drafts : ∀ {name s}, w.sessions.get? name = some s → (w.desk s.draft).Even past

/-- The request for a root changes no edges. -/
theorem Founding.even {root : RootId} (h : Founding roots n past w root d) : d.Even past :=
  .of_idle h.calm.agreed fun _ hp => ObjectId.noConfusion (h.alone hp)

namespace Orderly

variable (h : Orderly roots (n + act.mints) (m + 1) past w)
  (hroots : ∀ tenant, act = .createRoot tenant → roots (RootId.ofTenant tenant))

include h hroots

/-! ## One act -/

/-- What was committed once and is not stored any more, never is again. -/
theorem absent {id : ObjectId} (hcom : ∃ p, past p ∧ p.id = id)
    (hst : w.stored.get? id = none) : (w.step act).stored.get? id = none := by
  rw [(h.step act hroots).stored]
  cases hsent : w.sends act with
  | none => exact hst
  | some batch =>
    obtain ⟨d, c, _, rfl, rfl, hc, hcalm, hcur⟩ := h.sent hroots hsent
    rw [← hc] at hst hcur ⊢
    exact hcalm.absent hcur hcom hst

/-- Commits keep the halves of links together. -/
theorem twinned (he : w.Even past) (hpast : ∀ {p}, past p → past' p)
    (hnew : ∀ {p}, past' p → past p ∨ (w.step act).stored.get? p.id = some p)
    (h' : Orderly roots n m past' (w.step act)) :
    Twinned (Draft.empty.setting past' (w.step act).stored fun _ => False).WasEdge := by
  have hstored := (h.step act hroots).stored
  cases hsent : w.sends act with
  | none =>
    rw [hsent] at hstored
    have hback : ∀ {p}, past' p → past p := fun hp =>
      (hnew hp).elim id fun hst => (h.chronicle.stored_past (hstored ▸ hst)).1
    intro e a r t ha ht
    obtain ⟨b, s, hb, hhalf⟩ := he.twinned ⟨hback ha.1, ha.2⟩ ht
    exact ⟨b, s, ⟨hpast hb.1, hb.2⟩, hhalf⟩
  | some batch =>
    rw [hsent] at hstored
    obtain ⟨d, _, hb, rfl, _, _, _, hcur⟩ := h.sent hroots hsent
    rcases h.brings_cases hroots hb with ⟨_, _, hf⟩ | ⟨_, s, _, hs, hcalm, _, hgone⟩
    · exact Twinned.commit hf.calm h.whole he.twinned hf.even hcur h'.chronicle hpast hnew hstored
    · have hd := (((h.calm hs).evictUnreachable_even (he.drafts hs) h.whole s.root)).ok hgone
      exact Twinned.commit hcalm h.whole he.twinned hd hcur h'.chronicle hpast hnew hstored

/-- Every act keeps the halves of links together. -/
theorem even (he : w.Even past) (hpast : ∀ {p}, past p → past' p)
    (hnew : ∀ {p}, past' p → past p ∨ (w.step act).stored.get? p.id = some p)
    (h' : Orderly roots n m past' (w.step act)) : (w.step act).Even past' := by
  refine ⟨h.twinned hroots he hpast hnew h', fun {name s'} hs' => ?_⟩
  have hgone : ∀ {d : Desk Vault} {draft : Draft} {e}, d.stored = w.stored → d.Withdrawn past e →
      ((w.step act).desk draft).Withdrawn past' e := by
    rintro d draft e hst ⟨⟨p, hp, hid⟩, hnone⟩
    exact ⟨⟨p, hpast hp, hid⟩, h.absent hroots ⟨p, hp, hid⟩ (hst ▸ hnone)⟩
  -- at the desk where its work ended, the session was even
  have hleft : ∀ {c : Setting} {k : Nat} {d : Desk Vault}, d.Even past → Calm c k d →
      c.stored = w.stored → ((w.step act).desk d.draft).Even past' := fun hd hcalm hst =>
    hd.follow hcalm.agreed h'.agreed (fun _ => Iff.rfl) (fun _ => rfl)
      (hgone (hcalm.stored.trans hst))
  have hnext := h.next act hs'
  generalize s'.draft = draft at hnext
  cases hnext with
  | kept hs _ =>
    exact (he.drafts hs).follow h.agreed h'.agreed (fun _ => Iff.rfl) (fun _ => rfl) (hgone rfl)
  | fresh _ hidle _ => exact .of_idle h'.agreed fun e => hidle _
  | evicted _ hs =>
    refine (he.drafts hs).follow h.agreed h'.agreed (fun hdirty => ⟨fun ha => ?_, fun ha => ?_⟩)
      (fun _ => rfl) (hgone rfl)
    · exact (Draft.copy?_of_evictVolatile ha).1
    · exact Draft.evictVolatile_of_dirty ha hdirty
  | @worked s op d hact hs hl =>
    subst hact
    have hcalm := h.calm hs
    exact hleft ((op.run_even _ hcalm (he.drafts hs) h.whole he.twinned).leaves hl)
      ((op.run_calm _ hcalm).leaves hl) rfl
  | refused _ _ hs hok =>
    have hcalm := h.calm hs
    exact hleft ((hcalm.evictUnreachable_even (he.drafts hs) h.whole _).ok hok)
      ((hcalm.evictUnreachable _).ok hok) rfl
  | settled _ hb _ =>
    obtain ⟨c, _, _, hcalm⟩ := h.brought hroots hb
    exact .of_idle h'.agreed fun _ => hcalm.dated.settle_not_pending

/-- An act of somebody else that is not a commit leaves the stored edges
alone. -/
theorem stored_edge (hcommit : ∀ other, act = .commit other → w.sends act = none) (e : EdgeId) :
    (w.step act).stored.get? (.edge e) = w.stored.get? (.edge e) := by
  rw [(h.step act hroots).stored]
  cases hsent : w.sends act with
  | none => rfl
  | some batch =>
    obtain ⟨d, _, hb, rfl, _, hst, hcalm, _⟩ := h.sent hroots hsent
    rcases h.brings_cases hroots hb with ⟨_, _, hf⟩ | ⟨other, _, hact, _⟩
    · exact hcalm.dated.keyed.overlay_of_idle fun hp => ObjectId.noConfusion (hf.alone hp)
    · rw [hcommit other hact] at hsent
      cases hsent

/-- A session that is up to date stays so as long as nobody else gets a commit
through. -/
theorem upToDate (halone : ∀ other, act = .commit other → other ≠ name → w.sends act = none)
    (hab : ∀ {s}, w.sessions.get? name = some s → s.draft.UpToDate w.stored)
    (hs' : (w.step act).sessions.get? name = some s') :
    s'.draft.UpToDate (w.step act).stored := by
  have hstored := (h.step act hroots).stored
  have hsame : w.sends act = none → (w.step act).stored = w.stored := fun hnone => by
    rw [hstored, hnone]
    rfl
  -- work in the session leaves every version as the session held it
  have hleft : ∀ {s : Session} {k : Nat} {d : Desk Vault}, w.sessions.get? name = some s →
      w.sends act = none → Calm (s.draft.setting past w.stored (w.taken roots name)) k d →
      d.draft.UpToDate (w.step act).stored := by
    intro s k d hs hnone hcalm e
    rw [hsame hnone]
    exact (hcalm.dated.held _).trans (hab hs e)
  have hnext := h.next act hs'
  generalize s'.draft = draft at hnext
  cases hnext with
  | kept hs hne =>
    intro e
    rw [h.stored_edge hroots (fun other hact => halone other hact fun ho => hne (ho ▸ hact)) e,
      ← hab hs e]
    unfold Draft.held
    rw [h.stored_edge hroots (fun other hact => halone other hact fun ho => hne (ho ▸ hact)) e]
  | fresh hnone _ hheld =>
    intro e
    rw [hsame hnone, hheld]
    exact Draft.UpToDate.empty w.stored e
  | evicted hnone hs =>
    intro e
    rw [hsame hnone]
    exact (hab hs).evict (h.drafts hs).dated e
  | worked hact hs hl =>
    subst hact
    exact hleft hs rfl (((Op.run_calm _ _ (h.calm hs))).leaves hl)
  | refused _ hnone hs hok => exact hleft hs hnone (((h.calm hs).evictUnreachable _).ok hok)
  | @settled d hact hb hsent =>
    rw [hstored, hsent]
    rcases h.brings_cases hroots hb with ⟨_, hact', _⟩ | ⟨other, s, hact', hs, hcalm, _⟩
    · rw [hact'] at hact
      cases hact
    · rw [hact'] at hact
      cases hact
      have hd : d.draft.UpToDate w.stored := fun e => (hcalm.dated.held _).trans (hab hs e)
      exact hd.settle hcalm

end Orderly

/-! ## Whole runs -/

/-- No session but this one gets a commit through in the course of some acts. -/
def Concourse.Alone (name : String) : List Act → Concourse → Prop
  | [], _ => True
  | act :: acts, w =>
    (∀ other, act = .commit other → other ≠ name → w.sends act = none) ∧
      Alone name acts (w.step act)

namespace Orderly

/-- Any acts keep the halves of links together, and a session up to date during
which nobody else commits. -/
theorem play_even (acts : List Act)
    (h : Orderly roots (n + Act.totalMints acts) (m + acts.length) past w)
    (hroots : ∀ tenant, .createRoot tenant ∈ acts → roots (RootId.ofTenant tenant))
    (he : w.Even past) :
    ∃ past', Orderly roots n m past' (w.play acts) ∧ (w.play acts).Even past' ∧
      ∀ {name}, w.Alone name acts →
        (∀ {s}, w.sessions.get? name = some s → s.draft.UpToDate w.stored) →
        ∀ {s}, (w.play acts).sessions.get? name = some s →
          s.draft.UpToDate (w.play acts).stored := by
  induction acts generalizing w past with
  | nil => exact ⟨past, h, he, fun _ hab => hab⟩
  | cons act acts ih =>
    have hmints : n + Act.totalMints (act :: acts) = n + Act.totalMints acts + act.mints := by
      simp only [Act.totalMints]
      omega
    have hlen : m + (act :: acts).length = m + acts.length + 1 := rfl
    rw [hmints, hlen] at h
    have hfirst : ∀ tenant, act = .createRoot tenant → roots (RootId.ofTenant tenant) :=
      fun tenant ht => hroots tenant (ht ▸ List.mem_cons_self ..)
    obtain ⟨past₁, hpast, hnew, h₁⟩ := (h.step act hfirst).orderly
    obtain ⟨past', h', he', hab'⟩ := ih h₁
      (fun tenant ht => hroots tenant (List.mem_cons_of_mem _ ht))
      (h.even hfirst he hpast hnew h₁)
    exact ⟨past', h', he', fun halone hab =>
      hab' halone.2 (h.upToDate hfirst halone.1 hab)⟩

/-- What a session sees of links when it is up to date. -/
theorem twinned_look (h : Orderly roots n m past w) (he : w.Even past)
    (hs : w.sessions.get? name = some s) (hab : s.draft.UpToDate w.stored) :
    Twinned (EdgeIn (w.look name)) := by
  have hlook : w.look name = (w.desk s.draft).look := by
    funext id
    simp [Concourse.look, hs]
  rw [hlook]
  exact Twinned.look (c := s.draft.setting past w.stored (w.taken roots name)) he.twinned
    (h.calm hs) h.whole (he.drafts hs) hab

end Orderly

/-- Nobody else commits in the course of acts that hold no commit of anybody
else. -/
theorem Concourse.alone_of_forall (h : ∀ other, .commit other ∈ acts → other = name) :
    w.Alone name acts := by
  induction acts generalizing w with
  | nil => exact trivial
  | cons act acts ih =>
    refine ⟨fun other hact hne => absurd (h other (hact ▸ List.mem_cons_self ..)) hne, ?_⟩
    exact ih fun other ho => h other (List.mem_cons_of_mem _ ho)

/-- A session that nobody opens is not there. -/
theorem Concourse.absent_of_not_entered (hnone : w.sessions.get? name = none)
    (h : ∀ root, .enter name root ∉ acts) : (w.play acts).sessions.get? name = none := by
  induction acts generalizing w with
  | nil => exact hnone
  | cons act acts ih =>
    refine ih ?_ fun root hr => h root (List.mem_cons_of_mem _ hr)
    have hwork : ∀ {α : Type} {other : String} {job : Session → Work Vault α},
        (w.inSession other job).sessions.get? name = none := by
      intro α other job
      refine Option.eq_none_iff_forall_ne_some.2 fun s hs => ?_
      rcases Concourse.get?_inSession hs with ⟨_, hs⟩ | ⟨_, s, _, hs, _⟩ <;>
        · rw [hnone] at hs
          cases hs
    cases act with
    | createRoot tenant =>
      simp only [Concourse.step]
      split <;> exact hnone
    | enter other root =>
      have hne : name ≠ other := fun ho => h root (ho ▸ List.mem_cons_self ..)
      simp only [Concourse.step]
      split
      · exact (Table.get?_insert ..).trans ((if_neg hne).trans hnone)
      · exact hnone
    | perform other op => exact hwork
    | commit other => exact hwork
    | rollback other => exact hwork
    | evict other => exact hwork
    | leave other =>
      refine (Table.get?_erase ..).trans ?_
      rw [hnone, ite_self]
    | wait millis =>
      rw [Concourse.step_wait]
      exact hnone

/-- Nobody has opened a session yet, so halves that are alike in the vault are
alike everywhere. -/
theorem Concourse.even_begin (hv : vault.Intact) (htwins : Twinned (EdgeIn vault.anchors.get?)) :
    (Concourse.begin realm).Even fun p => ∃ id, vault.anchors.get? id = some p := by
  refine ⟨?_, fun hs => by cases hs⟩
  rintro e a r t ⟨⟨id, ha⟩, hid, hr⟩ ht
  have hown : a.id = id := (hv.whole.fits ha).1
  obtain ⟨b, s, hb, hhalf⟩ := htwins ⟨hid ▸ hown ▸ ha, hr⟩ ht
  exact ⟨b, s, ⟨⟨_, hb.1⟩, (hv.whole.fits hb.1).1, hb.2⟩, hhalf⟩

/-- The halves of an undirected link never come apart. After any acts of any
sessions every stored edge that has a twin has it beside it, with the ends
swapped and otherwise the same, down to the version. So it is for what a session
sees, if nobody else has got a commit through since it was opened. -/
theorem twins_never_diverge
    (hstart : Realm.start rulebook config vault = .ok realm vault') (hv : vault.Intact)
    (htwins : Twinned (EdgeIn vault.anchors.get?)) (before during : List Act)
    (hsup : Supplied realm (before ++ during)) :
    Twinned (EdgeIn ((Concourse.begin realm).play (before ++ during)).stored.get?) ∧
      ∀ name, ((Concourse.begin realm).play before).sessions.get? name = none →
        ((Concourse.begin realm).play before).Alone name during →
        Twinned (EdgeIn (((Concourse.begin realm).play (before ++ during)).look name)) := by
  have hfirst := hsup.orderly hv hstart
  have hmints : Act.totalMints (before ++ during) =
      0 + Act.totalMints during + Act.totalMints before := by
    rw [Act.totalMints_append]
    omega
  have hlen : (before ++ during).length = 0 + during.length + before.length := by
    simp [Nat.add_comm]
  rw [hmints, hlen] at hfirst
  obtain ⟨past₁, h₁, he₁, _⟩ := hfirst.play_even before
    (fun tenant ht => ⟨tenant, List.mem_append_left _ ht, rfl⟩) (Concourse.even_begin hv htwins)
  obtain ⟨past₂, h₂, he₂, hab⟩ := h₁.play_even during
    (fun tenant ht => ⟨tenant, List.mem_append_right _ ht, rfl⟩) he₁
  rw [← Concourse.play_append] at h₂ he₂ hab
  refine ⟨he₂.twinned.stored (c := Draft.empty.setting past₂ _ fun _ => False)
    h₂.chronicle h₂.whole, fun name hnone halone => ?_⟩
  cases hs : ((Concourse.begin realm).play (before ++ during)).sessions.get? name with
  | some s =>
    refine h₂.twinned_look he₂ hs (hab halone (fun {s} hs => ?_) hs)
    rw [hnone] at hs
    cases hs
  | none =>
    rintro e a r t ⟨ha, _⟩
    simp [Concourse.look, hs] at ha

section RoundTrip

/-- Somebody creates a root and begins to work. -/
def Travel.morning : List Act :=
  let root := RootId.ofTenant "acme"
  [.createRoot "acme", .enter "early" root, .perform "early" (.grant root .read)]

/-- Somebody else draws a road both ways and commits, while the first one works
on. -/
def Travel.roundTrip : List Act :=
  let root := RootId.ofTenant "acme"
  [.enter "late" root, .perform "late" (.connect root.node root.node "road" Fields.empty false),
    .perform "early" (.revoke root), .commit "late"]

theorem twins_after_roundTrip :
    Twinned (EdgeIn ((Concourse.begin Travel.opened).play
        (Travel.morning ++ Travel.roundTrip)).stored.get?) ∧
      Twinned (EdgeIn (((Concourse.begin Travel.opened).play
        (Travel.morning ++ Travel.roundTrip)).look "late")) := by
  have hfounds : ∀ id, Act.Founds (Travel.morning ++ Travel.roundTrip) id →
      id = RootId.ofTenant "acme" := by
    rintro id ⟨tenant, ht, rfl⟩
    simp only [Travel.morning, Travel.roundTrip, List.cons_append, List.nil_append, List.mem_cons,
      List.not_mem_nil, Act.createRoot.injEq, reduceCtorEq, or_false] at ht
    rw [ht]
  have hnames : ((.node (RootId.ofTenant "acme").node :: Travel.opened.shared.mint.upcoming
      (Act.totalMints (Travel.morning ++ Travel.roundTrip))) : List ObjectId).Nodup := by
    decide +kernel
  rw [List.nodup_cons] at hnames
  have hmint := Mint.ample_of_nodup hnames.2 fun id hid hf => hnames.1 (hfounds id hf ▸ hid)
  obtain ⟨hstored, hlook⟩ := twins_never_diverge Travel.opened_starts Vault.intact_empty
    (fun _ _ _ _ ha => by cases ha.1) Travel.morning Travel.roundTrip
    (.of_empty Travel.opened_starts hmint (by decide))
  refine ⟨hstored, hlook "late" (Concourse.absent_of_not_entered rfl fun root hr => ?_)
    (Concourse.alone_of_forall fun other ho => ?_)⟩
  · simp [Travel.morning] at hr
  · simpa [Travel.roundTrip] using ho

end RoundTrip

end Wayfarer
