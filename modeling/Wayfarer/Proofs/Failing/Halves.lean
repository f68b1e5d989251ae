import Wayfarer.Proofs.Failing.Sessions

/-!
# Edits that fail halfway

Fields and access lists are edited after all checks, and one object can always
be changed once it was checked. But an edit of one half of an undirected link
goes on to the other half, which was not checked: if somebody else has removed
the link since the request read the one half, the other is not there any more.
The edit fails then, and the half that was read stays changed (`Desk.Torn`).
This is the only way in which a failed edit leaves a trace (`failed_edits`).
-/

namespace Wayfarer

section

variable {σ : Type} [Durable σ] {t : Tier σ} {store : Store σ} {d d₁ d' : Desk σ} {id : ObjectId}
  {a b : Anchor} {change : Anchor → Anchor} {actor : Actor}

/-! ## One object has changed -/

/-- One desk differs from another in nothing that matters but one object. -/
structure Desk.Altered (d d' : Desk σ) (id : ObjectId) (b : Anchor) : Prop where
  pending : d'.draft.pending = (d.draft.pending.1.insert id b, d.draft.pending.2)
  seen : ∀ j, Work.answer (Desk.load j) d' =
    if j = id then .ok (some b) else Work.answer (Desk.load j) d
  mint : d'.shared.mint = d.shared.mint

/-- An edit that was made to one half of a link alone, as the other half is not
there. -/
structure Desk.Torn (d d' : Desk σ) (id : ObjectId) (change : Anchor → Anchor) (e : Error)
    (half : Anchor) (twin : EdgeId) : Prop where
  seen : Work.answer (Desk.load id) d = .ok (some half)
  names : half.edge?.bind (·.twin) = some twin
  missing : Work.answer (Desk.load (.edge twin)) d = .ok none
  cause : e = .notFound (.edge twin)
  altered : d.Altered d' id { change half with dirty := true }

namespace Desk

theorem keep_view (hr : d.draft.removed? id = none) (j : ObjectId) :
    (d.keep id b).draft.view t.content j = if j = id then some b else d.draft.view t.content j := by
  split
  · rename_i hj
    subst hj
    exact Draft.view_of_volatile hr ((keep_copy? ..).trans (if_pos rfl))
  · rename_i hj
    exact Draft.view_congr ((keep_copy? ..).trans (if_neg hj)) rfl

/-- A change to a copy alters the object, whatever is read before and after. -/
theorem Fetched.altered (h : Fetched t d d₁) (hd : d.Over t) (hr : d₁.draft.removed? id = none)
    (hb : b.dirty = true) (h' : Fetched t (d₁.keep id b) d') : d.Altered d' id b where
  pending := by
    rw [h'.toFilled.pending, ← h.toFilled.pending]
    refine Prod.ext (Table.ext_get? fun j => ?_) rfl
    simp only [Draft.pending, keep, Table.get?_filter, Table.get?_insert]
    split
    · simp [hb]
    · rfl
  seen j := by
    rw [h'.above.answer_load, hd.answer_load, h'.view_eq, keep_view hr, h.view_eq]
    split <;> rfl
  mint := h'.mint.trans h.mint

/-! ## Edits -/

/-- A change to an object that is seen fails only if the object names a twin
that is not. -/
theorem updateLinked_ends (h : Fetched t d d₁) (hd : d.Over t)
    (ha : d.draft.view t.content id = some a) (change : Anchor → Anchor) :
    Work.Ends (Actor.updateLinked id change) d₁ (fun _ _ => True)
      fun e d' => ∃ twin, d.Torn d' id change e a twin := by
  have hview : d₁.draft.view t.content id = some a := (h.view_eq id).trans ha
  refine (update?_ends h.above id change).surely.andThen ?_
  rintro before d₂ ⟨hbefore, d₂', hrec, hd₂⟩
  rw [hview] at hbefore
  subst hbefore
  subst hd₂
  refine .bind (.pure ?_)
  have hread := h.trans hrec.fetched
  have hr : d₂'.draft.removed? id = none := (Draft.view_eq_some ((hread.view_eq id).trans ha)).1
  have habove : (d₂'.keep id { change a with dirty := true }).Over t := hrec.above.drafted _
  cases htwin : a.edge?.bind (·.twin) with
  | none => exact .pure trivial
  | some twin =>
    refine (update?_ends habove (.edge twin) change).surely.andThen ?_
    rintro found d₃ ⟨hfound, d₃', hrec', hd₃⟩
    cases found with
    | some b => exact .bind (.pure (.pure trivial))
    | none =>
      subst hd₃
      refine .bind (.throw ⟨twin, ?_⟩)
      -- the first half is seen, so the twin is another object
      rw [keep_view hr, hread.view_eq] at hfound
      split at hfound
      · cases hfound
      · exact ⟨by rw [hd.answer_load, ha], htwin, by rw [hd.answer_load, ← hfound], rfl,
          hread.altered hd hr rfl hrec'.fetched⟩

/-- An edit checks the object and then changes it. -/
theorem edit_ends {op : Op} (hop : op.edit? = some (id, change)) (h : d.Over t) (actor : Actor) :
    Work.Ends (op.run actor) d (fun _ _ => True)
      fun e d' => Fetched t d d' ∨ ∃ half twin, d.Torn d' id change e half twin := by
  let Fails (e : Error) (d' : Desk σ) : Prop :=
    Fetched t d d' ∨ ∃ half twin, d.Torn d' id change e half twin
  have hupdate : ∀ {a d₁}, d.draft.view t.content id = some a → Recalled t id d d₁ →
      Work.Ends (Actor.updateLinked id change) d₁ (fun _ _ => True) Fails := fun ha hr =>
    (updateLinked_ends hr.fetched h ha change).mono (fun _ _ _ => trivial) fun _ _ ht =>
      .inr ⟨_, ht⟩
  -- the four edits of an access list differ in what they do to it only
  have haccess : ∀ access : Access → Access,
      (fun a => { a with access := access a.access }) = change →
      Work.Ends (actor.changeAccess id access) d (fun _ _ => True) Fails := by
    rintro access rfl
    refine .bind ((check_ends h actor id _).mono ?_ fun _ _ hr => .inl hr.fetched)
    rintro a d₁ ⟨ha, hr⟩
    exact (hupdate ha hr).andThen fun _ _ _ => .pure trivial
  cases op with
  | setField id' field value =>
    cases hop
    refine .bind ((check_ends h actor id _).mono ?_ fun _ _ hr => .inl hr.fetched)
    rintro a d₁ ⟨ha, hr⟩
    simp only
    split
    · exact .throw (.inl hr.fetched)
    · exact (hupdate ha hr).andThen fun _ _ _ => .pure trivial
  | grant | revoke | allow | disallow =>
    cases hop
    exact (haccess _ rfl).andThen fun _ _ _ => .pure trivial
  | _ => cases hop

end Desk

/-- How an edit may fail: without a trace, or because the object is half of a
link whose other half is missing. -/
def Desk.FailsAt (d : Desk σ) (actor : Actor) (op : Op) (id : ObjectId) (change : Anchor → Anchor) :
    Prop :=
  ∀ {e d'}, op.run actor d = .error e d' →
    d.Untouched d' ∨ ∃ half twin, d.Torn d' id change e half twin

theorem Desk.Sturdy.failsAt (h : d.Sturdy store) {op : Op} (hop : op.edit? = some (id, change))
    (actor : Actor) : d.FailsAt actor op id change := fun hrun =>
  ((edit_ends hop h.over_tier actor).error hrun).imp_left fun hf => hf.untouched h.over_tier

end

/-- Whatever sessions and walks do, in any order, an edit that fails leaves no
trace, unless the object is half of an undirected link whose other half is
missing from what the request sees. Then that half has been changed alone, the
error says that the other one was not found, and nothing else has changed. -/
theorem failed_edits {σ : Type} [Durable σ] (store : Store σ) {rules : Rulebook}
    {config : RealmConfig} {realm : Realm σ} {s s' : σ} (hs : store.holds s)
    (hstored : ∀ {id a}, (store.content s).get? id = some a → a.Sturdy id)
    (hstart : Realm.start rules config s = .ok realm s') (moves : List Move)
    (hroom : ∀ x ∈ (Assembly.begin realm).journal moves, x.Roomy store) {op : Op} {id : ObjectId}
    {change : Anchor → Anchor} (hop : op.edit? = some (id, change)) :
    (∀ {name session}, ((Assembly.begin realm).play moves).sessions.get? name = some session →
      (((Assembly.begin realm).play moves).desk session).FailsAt
        (((Assembly.begin realm).play moves).realm.actor session.root) op id change) ∧
    ∀ {d}, .performs d op ∈ (Assembly.begin realm).journal moves →
      ∀ actor, d.FailsAt actor op id change := by
  obtain ⟨hsessions, hnoted⟩ := store.reached_sturdy hs hstored hstart moves hroom
  exact ⟨fun hget => (hsessions hget).failsAt hop _, fun hx => (hnoted _ hx).failsAt hop⟩

section Severed

/-- Two sessions of one tenant. One links the root to a new place, in both
directions, and commits. The other reads one half of the link, and then the
first takes the link away and commits again. -/
def Travel.severing : List Move :=
  let root := RootId.ofTenant "acme"
  let mint := unsettled.shared.mint
  [.ask root (.createRoot "acme"), .enter "left" root,
    .attend "left" (.perform (.create "place" Fields.empty)),
    .attend "left" (.perform (.connect root.node mint.nextNode plainEdgeName Fields.empty false)),
    .attend "left" .commit, .enter "right" root,
    .attend "right" (.perform (.edge mint.advance.nextEdge)),
    .attend "left" (.perform (.disconnect mint.advance.nextEdge)), .attend "left" .commit]

/-- The half that was read. -/
def Travel.severed : ObjectId := .edge unsettled.shared.mint.advance.nextEdge

/-- Whether a session that has changed nothing fails at an operation and has
changed something then. -/
def Assembly.tears (w : Assembly Vault) (name : String) (op : Op) : Bool :=
  match w.sessions.get? name with
  | none => false
  | some s =>
    s.draft.pending.1.isEmpty &&
      match op.run (w.realm.actor s.root) (w.desk s) with
      | .error _ d => !d.draft.pending.1.isEmpty
      | .ok _ _ => false

theorem Assembly.of_tears {w : Assembly Vault} {name : String} {op : Op}
    (h : w.tears name op = true) :
    ∃ s e d, w.sessions.get? name = some s ∧ op.run (w.realm.actor s.root) (w.desk s) = .error e d ∧
      ¬ (w.desk s).Untouched d := by
  unfold tears at h
  split at h
  · cases h
  · rename_i s hs
    rw [Bool.and_eq_true] at h
    obtain ⟨hnothing, hchanged⟩ := h
    split at hchanged
    · rename_i e d hrun
      refine ⟨s, e, d, hs, hrun, fun hsame => ?_⟩
      rw [hsame.pending, show (w.desk s).draft = s.draft from rfl, hnothing] at hchanged
      cases hchanged
    · cases hchanged

theorem Travel.severing_done :
    (∀ x ∈ (Assembly.begin unsettled).journal severing, x.Roomy Store.vault) ∧
      ((Assembly.begin unsettled).play severing).tears "right" (.grant severed .read) = true := by
  decide +kernel

/-- The other session lets everybody read the half. That fails, and yet the half
is changed. -/
theorem failed_grant_leaves_trace : ∃ s e d,
    ((Assembly.begin Travel.unsettled).play Travel.severing).sessions.get? "right" = some s ∧
    (Op.grant Travel.severed .read).run
      (((Assembly.begin Travel.unsettled).play Travel.severing).realm.actor s.root)
      (((Assembly.begin Travel.unsettled).play Travel.severing).desk s) = .error e d ∧
    ¬ (((Assembly.begin Travel.unsettled).play Travel.severing).desk s).Untouched d :=
  Assembly.of_tears Travel.severing_done.2

/-- What has changed is the half alone. -/
theorem failed_grant_tears_half : ∃ s e d half twin,
    ((Assembly.begin Travel.unsettled).play Travel.severing).sessions.get? "right" = some s ∧
    (((Assembly.begin Travel.unsettled).play Travel.severing).desk s).Torn d Travel.severed
      (fun a => { a with access := a.access.grant .read }) e half twin := by
  obtain ⟨hroom, htears⟩ := Travel.severing_done
  obtain ⟨s, e, d, hs, hrun, htrace⟩ := Assembly.of_tears htears
  have hedit : (Op.grant Travel.severed .read).edit? =
      some (Travel.severed, fun a => { a with access := a.access.grant .read }) := rfl
  have hfails := (failed_edits Store.vault (fun ha => by cases ha) (fun ha => by cases ha)
    Travel.unsettled_starts Travel.severing hroom hedit).1 hs hrun
  obtain ⟨half, twin, htorn⟩ := hfails.resolve_left htrace
  exact ⟨s, e, d, half, twin, hs, htorn⟩

end Severed

end Wayfarer
