import Wayfarer.Proofs.Strokes

/-!
# Operations that fail

All checks of an operation come before its first change, so an operation that
fails has done nothing but read. That takes an argument, because changes can
fail too: a node that was checked might be gone, or be something else than a
node, when it is changed. It cannot, since the check left a copy of it in the
draft (`Desk.Has`), and all further changes keep that copy (`Desk.Retains`).

* `Desk.Untouched` says that nothing a request could notice or commit has
  changed.
* `Desk.run_ends` is about every operation but those that edit an object
  (`Op.edit?`).
-/

namespace Wayfarer

variable {σ : Type}

/-! ## Nothing has changed -/

/-- The answer of work begun at a desk. -/
def Work.answer {α : Type} (w : Work σ α) (d : Desk σ) : Except Error α :=
  match w d with
  | .ok a _ => .ok a
  | .error e _ => .error e

/-- What awaits a commit: the changed anchors, and the removed objects with the
versions they had. -/
def Draft.pending (d : Draft) : Table ObjectId Anchor × Table ObjectId UInt64 :=
  (d.volatile.filter fun _ a => a.dirty, d.tombstones)

/-- One desk differs from another in nothing that matters: the same changes
await a commit, every object is answered alike when it is loaded, and as many
identities were minted. -/
structure Desk.Untouched [Durable σ] (d d' : Desk σ) : Prop where
  pending : d'.draft.pending = d.draft.pending
  seen : ∀ id, Work.answer (Desk.load id) d' = Work.answer (Desk.load id) d
  mint : d'.shared.mint = d.shared.mint

/-- The object that an operation edits, and what it does to it. All other
operations read, or they put objects into the graph and take them out. -/
def Op.edit? : Op → Option (ObjectId × (Anchor → Anchor))
  | .setField id field value => some (id, fun a => a.withFields (a.fields.set field value))
  | .grant id level => some (id, fun a => { a with access := a.access.grant level })
  | .revoke id => some (id, fun a => { a with access := a.access.revoke })
  | .allow id root level => some (id, fun a => { a with access := a.access.allow root level })
  | .disallow id root => some (id, fun a => { a with access := a.access.disallow root })
  | _ => none

variable [Durable σ] {t : Tier σ} {d d₀ d₁ d₂ d' : Desk σ} {m source target : NodeId}

theorem Draft.Filled.pending {d d' : Draft} (h : d.Filled t.content d') :
    d'.pending = d.pending := by
  refine Prod.ext (Table.ext_get? fun id => ?_) h.tombstones
  simp only [Draft.pending, Table.get?_filter]
  rcases h.volatile id with hsame | ⟨hnone, -, b, hb, hcopy⟩
  · rw [hsame]
  · -- what was loaded is clean, so it does not await a commit
    rw [hnone, hcopy]
    simp [(t.tidy hb).2]

namespace Desk

/-- What a request works on does not matter to the tiers below it. -/
theorem Over.drafted (h : d.Over t) (draft : Draft) : Over t { d with draft := draft } :=
  ⟨h.holds, h.coherent⟩

theorem Over.answer_load (h : d.Over t) (id : ObjectId) :
    Work.answer (load id) d = .ok (d.draft.view t.content id) := by
  obtain ⟨found, d', hload, rfl, -⟩ := (load_ends h id).exists_ok
  rw [Work.answer, hload]

theorem Fetched.untouched (h : Fetched t d d') (hd : d.Over t) : d.Untouched d' where
  pending := h.toFilled.pending
  seen id := by rw [h.above.answer_load, hd.answer_load, h.view_eq]
  mint := h.mint

/-! ## Nodes at hand -/

/-- The request has a copy of a node. -/
def Has (d : Desk σ) (m : NodeId) : Prop :=
  d.draft.removed? (.node m) = none ∧ ∃ a r, NodeIn d.draft.copy? m a r

/-- Whatever is seen under the identity of a node is a node. -/
def Nodal (t : Tier σ) (d : Desk σ) : Prop :=
  ∀ m a, d.draft.view t.content (.node m) = some a → ∃ r, a.node? = some r

/-- A desk over the same tier with no fewer nodes at hand. -/
structure Retains (t : Tier σ) (d d' : Desk σ) : Prop where
  above : d'.Over t
  has : ∀ {m}, d.Has m → d'.Has m

theorem Fetched.retains (h : Fetched t d d') : Retains t d d' :=
  ⟨h.above, fun ⟨hr, a, r, ha, hnode⟩ => ⟨(congrArg (Table.get? · _) h.tombstones).trans hr, a, r,
    h.kept ha, hnode⟩⟩

theorem Fetched.nodal (h : Fetched t d d') (hd : d.Nodal t) : d'.Nodal t := fun m a ha =>
  hd m a (h.view_eq _ ▸ ha)

namespace Retains

theorem refl (h : d.Over t) : Retains t d d := ⟨h, id⟩

theorem trans (h : Retains t d d₁) (h' : Retains t d₁ d₂) : Retains t d d₂ :=
  ⟨h'.above, fun hm => h'.has (h.has hm)⟩

theorem minted (h : Retains t d d₁) : Retains t d d₁.minted :=
  ⟨⟨h.above.holds, h.above.coherent.congr rfl rfl⟩, h.has⟩

theorem staged {a : Anchor} (h : Retains t d d₁)
    (ha : ∀ {m}, a.id = .node m → ∃ r, a.node? = some r) :
    Retains t d (d₁.staged a) := by
  refine ⟨h.above.drafted _, fun {m} hm => ?_⟩
  obtain ⟨hr, b, r, hb, hnode⟩ := h.has hm
  unfold Has NodeIn Desk.staged
  simp only [Draft.stage_removed?, Draft.stage_copy?]
  by_cases hid : ObjectId.node m = a.id
  · obtain ⟨s, hs⟩ := ha hid.symm
    exact ⟨if_pos hid, _, s, if_pos hid, hs⟩
  · exact ⟨(if_neg hid).trans hr, b, r, (if_neg hid).trans hb, hnode⟩

theorem stagedEdge (h : Retains t d d₁) (e : EdgeId) (owner : RootId) (record : EdgeRecord) :
    Retains t d (d₁.staged (.ofEdge e owner record)) := h.staged fun hid => ObjectId.noConfusion hid

theorem keep {a : Anchor} {r : NodeRecord} (h : Retains t d d₁) (ha : a.node? = some r) :
    Retains t d (d₁.keep m a) := by
  refine ⟨h.above.drafted _, fun {k} hk => ?_⟩
  obtain ⟨hr, b, s, hb, hnode⟩ := h.has hk
  unfold Has NodeIn
  simp only [Desk.keep_copy?]
  by_cases hid : ObjectId.node k = .node m
  · exact ⟨hr, a, r, if_pos hid, ha⟩
  · exact ⟨hr, b, s, (if_neg hid).trans hb, hnode⟩

end Retains

omit [Durable σ] in
theorem has_staged {record : NodeRecord} {owner : RootId} :
    (d.staged (.ofNode m owner record)).Has m := by
  unfold Has NodeIn staged
  simp only [Draft.stage_removed?, Draft.stage_copy?]
  exact ⟨if_pos rfl, _, record, if_pos rfl, rfl⟩

/-! ## Checks -/

/-- A check loads the object and answers it. -/
theorem check_ends (h : d.Over t) (actor : Actor) (id : ObjectId) (level : Level) :
    Work.Ends (actor.check id level) d
      (fun a d' => d.draft.view t.content id = some a ∧ Recalled t id d d')
      fun _ => Recalled t id d := by
  refine (load_ends h id).surely.andThen ?_
  rintro found d' ⟨hfound, hr⟩
  cases found with
  | none => exact .throw hr
  | some a =>
    simp only
    split
    · exact .pure ⟨hfound.symm, hr⟩
    · exact .throw hr

/-- A node that passes a check is at hand. -/
theorem check_node_ends (h : Fetched t d₀ d) (hn : d₀.Nodal t) (actor : Actor) (m : NodeId)
    (level : Level) :
    Work.Ends (actor.check m level) d
      (fun _ d' => Fetched t d₀ d' ∧ Retains t d d' ∧ d'.Has m) fun _ => Fetched t d₀ := by
  refine (check_ends h.above actor m level).mono ?_ fun _ _ hr => h.trans hr.fetched
  rintro a d' ⟨ha, hr⟩
  obtain ⟨r, hnode⟩ := h.nodal hn m a ha
  have hthere : d'.draft.removed? m = none :=
    (Draft.view_eq_some ((hr.fetched.view_eq m).trans ha)).1
  exact ⟨h.trans hr.fetched, hr.fetched.retains, hthere, a, r, hr.copied ha, hnode⟩

/-! ## Changes that cannot fail -/

theorem changeNode_ends (h : d.Over t) (hm : d.Has m) (f : NodeRecord → NodeRecord) :
    Work.Ends (Actor.changeNode m f) d (fun _ => Retains t d) fun _ _ => False := by
  obtain ⟨hr, a, r, ha, hnode⟩ := hm
  have hview : d.draft.view t.content m = some a := Draft.view_of_volatile hr ha
  refine (update?_ends h _ _).andThen ?_
  rintro before d' ⟨hbefore, d₁, hrec, hd'⟩
  rw [hview] at hbefore
  subst hbefore
  subst hd'
  rw [Option.bind_some, hnode]
  exact .pure (hrec.fetched.retains.keep (Anchor.mapNode_node? hnode f))

/-- A link between nodes that are at hand cannot fail. -/
theorem link_ends (h : d.Over t) (hs : d.Has source) (ht : d.Has target) (actor : Actor)
    (type : TypeId) (fields : Fields) (directed : Bool) :
    Work.Ends (actor.link source target type fields directed) d (fun _ => Retains t d)
      fun _ _ => False := by
  have hattach : ∀ {m f d₁}, Retains t d d₁ → d.Has m →
      Work.Ends (Actor.changeNode m f) d₁ (fun _ => Retains t d) fun _ _ => False :=
    fun h₁ hm => (changeNode_ends h₁.above (h₁.has hm) _).imp fun _ _ h₂ => h₁.trans h₂
  have hminted := (Retains.refl h).minted
  refine .bind (.bind (.get (.bind (.modify (.pure ?_)))))
  cases directed with
  | true =>
    refine .bind (.modify ?_)
    refine (hattach (hminted.stagedEdge ..) hs).andThen fun _ _ h₁ => ?_
    refine (hattach h₁ ht).andThen fun _ _ h₂ => ?_
    exact .pure h₂
  | false =>
    -- there are two halves, and either node gets both of them
    refine .bind (.bind (.get (.bind (.modify (.pure (.bind (.modify (.bind (.modify ?_)))))))))
    refine (hattach ((hminted.minted.stagedEdge ..).stagedEdge ..) hs).andThen fun _ _ h₁ => ?_
    refine (hattach h₁ ht).andThen fun _ _ h₂ => ?_
    refine (hattach h₂ ht).andThen fun _ _ h₃ => ?_
    refine (hattach h₃ hs).andThen fun _ _ h₄ => ?_
    exact .pure h₄

/-- Taking something out cannot fail either. -/
theorem delete_over (h : d.Over t) (id : ObjectId) :
    Work.Ends (delete id) d (fun _ d' => d'.Over t) fun _ _ => False := by
  refine (delete_ends h id).imp ?_
  rintro _ d' ⟨d₁, hrec, rfl⟩
  cases d.draft.view t.content id with
  | none => exact hrec.above
  | some a => exact hrec.above.drafted _

theorem detachAt_over (h : d.Over t) (e : EdgeId) (m : NodeId) :
    Work.Ends (Actor.detachAt e m) d (fun _ d' => d'.Over t) fun _ _ => False := by
  refine (update?_ends h _ _).andThen ?_
  rintro before d' ⟨-, d₁, hrec, rfl⟩
  cases before with
  | none => exact .pure hrec.above
  | some a => exact .pure (hrec.above.drafted _)

theorem unlink_over (h : d.Over t) (e : EdgeId) :
    Work.Ends (Actor.unlink e) d (fun _ d' => d'.Over t) fun _ _ => False := by
  refine .bind ((load_ends h _).andThen fun found d₁ h₁ => .pure ?_)
  cases found.bind Anchor.edge? with
  | none => exact .pure h₁.2.above
  | some r =>
    refine (detachAt_over h₁.2.above e r.source).andThen fun _ _ h₂ => ?_
    refine (detachAt_over h₂ e r.target).andThen fun _ _ h₃ => ?_
    exact delete_over h₃ e

/-! ## Operations -/

/-- After some reading, work that reads still leaves everything untouched, and
keeps what is at hand. -/
theorem Fetched.goes_on {α : Type} {w : Work σ α} (h : Fetched t d₀ d) (hw : Reads w) :
    Work.Ends w d (fun _ d' => Fetched t d₀ d' ∧ Retains t d d') fun _ => Fetched t d₀ :=
  (hw t d d (.refl h.above)).mono (fun _ _ h' => ⟨h.trans h', h'.retains⟩) fun _ _ h' => h.trans h'

theorem create_ends (h : Fetched t d₀ d) (actor : Actor) (type : String) (fields : Fields) :
    Work.Ends (actor.create type fields) d (fun m d' => Retains t d d' ∧ d'.Has m)
      fun _ => Fetched t d₀ := by
  refine (h.goes_on (.resolve actor _ _)).andThen fun _ d₁ h₁ => ?_
  split
  · exact .bind (.throw h₁.1)
  refine (h₁.1.goes_on (.fillFields actor _ _)).andThen fun _ d₂ h₂ => ?_
  refine .bind (.bind (.get (.bind (.modify (.pure (.bind (.modify (.pure ?_))))))))
  refine ⟨(h₁.2.trans h₂.2).minted.staged fun hid => ?_, has_staged⟩
  exact ⟨_, rfl⟩

theorem createLinked_ends (h : Fetched t d₀ d) (hn : d₀.Nodal t) (actor : Actor) (source : NodeId)
    (type : String) (fields : Fields) (edgeType : String) :
    Work.Ends (actor.createLinked source type fields edgeType) d (fun _ _ => True)
      fun _ => Fetched t d₀ := by
  refine (h.goes_on (.resolve actor _ _)).andThen fun _ d₁ h₁ => ?_
  refine (h₁.1.goes_on (.fillFields actor _ _)).andThen fun _ d₂ h₂ => ?_
  refine (check_node_ends h₂.1 hn actor source _).andThen fun _ d₃ h₃ => ?_
  -- creating the node may still fail, but linking it cannot
  refine (create_ends h₃.1 actor type fields).andThen fun m d₄ h₄ => ?_
  refine (link_ends h₄.1.above (h₄.1.has h₃.2.2) h₄.2 actor _ _ _).surely.andThen fun _ _ _ => ?_
  exact .pure trivial

theorem connect_ends (h : Fetched t d₀ d) (hn : d₀.Nodal t) (actor : Actor) (source target : NodeId)
    (edgeType : String) (fields : Fields) (directed : Bool) :
    Work.Ends (actor.connect source target edgeType fields directed) d (fun _ _ => True)
      fun _ => Fetched t d₀ := by
  refine (h.goes_on (.resolve actor _ _)).andThen fun _ d₁ h₁ => ?_
  refine (h₁.1.goes_on (.fillFields actor _ _)).andThen fun _ d₂ h₂ => ?_
  refine (check_node_ends h₂.1 hn actor source _).andThen fun _ d₃ h₃ => ?_
  refine (check_node_ends h₃.1 hn actor target _).andThen fun _ d₄ h₄ => ?_
  exact (link_ends h₄.1.above (h₄.2.1.has h₃.2.2) h₄.2.2 actor _ _ _).surely.imp
    fun _ _ _ => trivial

/-- All nodes of a list that pass a check are at hand. -/
theorem checks_ends (h : Fetched t d₀ d) (hn : d₀.Nodal t) (hs : d.Has source) (actor : Actor)
    (level : Level) (nodes : List NodeId) :
    Work.Ends (nodes.forM fun (m : NodeId) => do let _ ← actor.check m level) d
      (fun _ d' => Fetched t d₀ d' ∧ d'.Has source ∧ ∀ m ∈ nodes, d'.Has m)
      fun _ => Fetched t d₀ := by
  -- while nodes are left to be checked, the others are at hand
  let Checked (rest : List NodeId) (d : Desk σ) : Prop :=
    Fetched t d₀ d ∧ d.Has source ∧ ∀ m ∈ nodes, m ∈ rest ∨ d.Has m
  refine (Work.Ends.forM (J := Checked) ⟨h, hs, fun _ hm => .inl hm⟩ ?_).imp ?_
  · rintro m rest d ⟨hd, hs, hrest⟩
    refine (check_node_ends hd hn actor m _).andThen fun _ d' h' => .pure ?_
    refine ⟨h'.1, h'.2.1.has hs, fun k hk => ?_⟩
    rcases hrest k hk with hmem | hhas
    · rcases List.mem_cons.1 hmem with rfl | hmem
      · exact .inr h'.2.2
      · exact .inl hmem
    · exact .inr (h'.2.1.has hhas)
  · rintro _ d' ⟨h', hs', hall⟩
    exact ⟨h', hs', fun m hm => (hall m hm).resolve_left List.not_mem_nil⟩

/-- One link after another between nodes that are at hand. -/
theorem links_ends (h : d.Over t) (hs : d.Has source) {targets : List NodeId}
    (ht : ∀ m ∈ targets, d.Has m) (actor : Actor) (type : TypeId) (fields : Fields)
    (directed : Bool) :
    Work.Ends (targets.mapM fun m => actor.link source m type fields directed) d
      (fun _ => Retains t d) fun _ _ => False := by
  refine (Work.Ends.mapM (J := fun rest d' => Retains t d d' ∧ ∀ m ∈ rest, d.Has m)
    ⟨.refl h, ht⟩ ?_).imp fun _ _ h' => h'.1
  rintro m rest d' ⟨hd, hrest⟩
  rw [List.forall_mem_cons] at hrest
  exact (link_ends hd.above (hd.has hs) (hd.has hrest.1) actor _ _ _).imp
    fun _ _ h' => ⟨hd.trans h', hrest.2⟩

theorem connectMany_ends (h : Fetched t d₀ d) (hn : d₀.Nodal t) (actor : Actor) (source : NodeId)
    (targets : List NodeId) (edgeType : String) (fields : Fields) (directed : Bool) :
    Work.Ends (actor.connectMany source targets edgeType fields directed) d (fun _ _ => True)
      fun _ => Fetched t d₀ := by
  refine (h.goes_on (.resolve actor _ _)).andThen fun _ d₁ h₁ => ?_
  refine (h₁.1.goes_on (.fillFields actor _ _)).andThen fun _ d₂ h₂ => ?_
  refine (check_node_ends h₂.1 hn actor source _).andThen fun _ d₃ h₃ => ?_
  -- all targets are checked before the first link is made, so no link fails after another
  refine (checks_ends h₃.1 hn h₃.2.2 actor _ targets).andThen fun _ d₄ h₄ => ?_
  exact (links_ends h₄.1.above h₄.2.1 h₄.2.2 actor _ _ _).surely.imp fun _ _ _ => trivial

theorem disconnect_ends (h : Fetched t d₀ d) (actor : Actor) (e : EdgeId) :
    Work.Ends (actor.disconnect e) d (fun _ _ => True) fun _ => Fetched t d₀ := by
  have hload : Reads (Desk.loadEdge (σ := σ) e) := .bind (.load _) fun _ => .pure _
  refine (h.goes_on hload).andThen fun _ d₁ h₁ => ?_
  refine (h₁.1.goes_on (.part _ _)).andThen fun r d₂ h₂ => ?_
  refine (h₂.1.goes_on (.check actor _ _)).andThen fun _ d₃ h₃ => ?_
  refine (h₃.1.goes_on (.check actor _ _)).andThen fun _ d₄ h₄ => ?_
  refine (unlink_over h₄.1.above e).surely.andThen fun _ d₅ h₅ => ?_
  cases r.twin with
  | none => exact .pure trivial
  | some twin => exact (unlink_over h₅ twin).surely.imp fun _ _ _ => trivial

/-- Whether a node may be removed is found out by reading. -/
theorem reads_destroyable (actor : Actor) (m : NodeId) : Reads (actor.destroyable (σ := σ) m) := by
  refine .bind (.check actor _ _) fun _ => .bind (.part _ _) fun r => ?_
  simp only
  split
  · exact .bind (.throw _) fun _ => .pure _
  · exact .pure _

theorem destroy_ends (h : Fetched t d₀ d) (actor : Actor) (m : NodeId) :
    Work.Ends (actor.destroy m) d (fun _ _ => True) fun _ => Fetched t d₀ := by
  refine (h.goes_on (reads_destroyable actor m)).andThen fun r d₁ h₁ => ?_
  -- what goes with the node is found by reading, before anything is taken out
  have hdoomed : Reads (Actor.doomed (σ := σ) r) := fun t d => (Reads.browses t d).doomed r
  refine (h₁.1.goes_on hdoomed).andThen fun edges d₂ h₂ => ?_
  have hedges := Work.Ends.forM (l := edges.keys) (J := fun _ d => d.Over t) (E := fun _ _ => False)
    h₂.1.above fun e _ d hd => unlink_over hd e
  refine hedges.surely.andThen fun _ d₃ h₃ => ?_
  exact (delete_over h₃ _).surely.imp fun _ _ _ => trivial

theorem destroyIsolated_ends (h : Fetched t d₀ d) (actor : Actor) (m : NodeId) :
    Work.Ends (actor.destroyIsolated m) d (fun _ _ => True) fun _ => Fetched t d₀ := by
  refine (h.goes_on (reads_destroyable actor m)).andThen fun r d₁ h₁ => ?_
  split
  · exact .bind (.throw h₁.1)
  · exact (delete_over h₁.1.above _).surely.imp fun _ _ _ => trivial

/-- An operation that edits no object fails only before it has changed
anything. -/
theorem run_ends {op : Op} (hop : op.edit? = none) (h : d.Over t) (hn : d.Nodal t) (actor : Actor) :
    Work.Ends (op.run actor) d (fun _ _ => True) fun _ => Fetched t d := by
  have hread : op.isRead = true →
      Work.Ends (op.run actor) d (fun _ _ => True) fun _ => Fetched t d := fun hread =>
    (Reads.run hread actor t d d (.refl h)).imp fun _ _ _ => trivial
  have h := Fetched.refl h
  cases op with
  | create type fields => exact (create_ends h actor type fields).imp fun _ _ _ => trivial
  | createLinked source type fields edgeType =>
    exact createLinked_ends h hn actor source type fields edgeType
  | connect source target edgeType fields directed =>
    exact connect_ends h hn actor source target edgeType fields directed
  | connectMany source targets edgeType fields directed =>
    exact connectMany_ends h hn actor source targets edgeType fields directed
  | disconnect e => exact disconnect_ends h actor e
  | destroy m => exact destroy_ends h actor m
  | destroyIsolated m => exact destroyIsolated_ends h actor m
  | setField | grant | revoke | allow | disallow => cases hop
  | _ => exact hread rfl

end Desk

end Wayfarer
