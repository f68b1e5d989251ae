import Wayfarer.Proofs.Sound

/-!
# Creating and linking

A new edge is staged first and then attached to its ends, one list after
another; it is due in the meantime. `Desk.Grows` is what attaching an edge at
one end does to a desk, `Desk.Joins` at both. When all lists name the new edges,
nothing is due any more (`Sound.link`).
-/

namespace Wayfarer

variable {c : Setting} {n : Nat} {due due' : EdgeId → Prop} {d d' d'' : Desk Vault} {a b : Anchor}

/-- The request sees some object under this identity. -/
def Desk.Sees (d : Desk Vault) (id : ObjectId) : Prop := ∃ a, d.look id = some a

/-- A copy of a node lists an edge at a port. -/
def Desk.Lists (d : Desk Vault) (e : EdgeId) (m : NodeId) (p : Port) : Prop :=
  ∃ b s, NodeIn d.draft.copy? m b s ∧ e ∈ s.edgesAt p

/-- A changed copy of a node lists an edge at a port. -/
def Desk.Binds (d : Desk Vault) (e : EdgeId) (m : NodeId) (p : Port) : Prop :=
  ∃ b s, NodeIn d.draft.copy? m b s ∧ b.dirty = true ∧ e ∈ s.edgesAt p

/-- What attaching the edge `e` to the node `m` at a port does to a desk. -/
structure Desk.Grows (c : Setting) (d : Desk Vault) (e : EdgeId) (m : NodeId) (p : Port)
    (d' : Desk Vault) : Prop where
  edges : ∀ {x b r}, EdgeIn d.draft.copy? x b r → EdgeIn d'.draft.copy? x b r
  sees : ∀ {id}, d.Sees id → d'.Sees id
  binds : ∀ {x m' q}, d.Binds x m' q → d'.Binds x m' q
  only : ∀ {x m' q}, d'.Lists x m' q →
    d.Lists x m' q ∨ c.Committed (.edge x) ∨ (x = e ∧ m' = m ∧ q = p)
  here : d'.Binds e m p

/-- What attaching the edge `e` at both its ends does to a desk. -/
structure Desk.Joins (c : Setting) (d : Desk Vault) (e : EdgeId) (r : EdgeRecord)
    (d' : Desk Vault) : Prop where
  edges : ∀ {x b s}, EdgeIn d.draft.copy? x b s → EdgeIn d'.draft.copy? x b s
  sees : ∀ {id}, d.Sees id → d'.Sees id
  binds : ∀ {x m q}, d.Binds x m q → d'.Binds x m q
  only : ∀ {x m q}, d'.Lists x m q → d.Lists x m q ∨ c.Committed (.edge x) ∨ x = e
  here : ∀ p, d'.Binds e (r.endAt p) p

/-- A change of a node's record that adds an edge at a port. -/
structure NodeRecord.Adds (f : NodeRecord → NodeRecord) (e : EdgeId) (p : Port) : Prop where
  type : ∀ r, (f r).type = r.type
  edgesAt : ∀ r q, (f r).edgesAt q = if q = p then r.edgesAt q ++ [e] else r.edgesAt q

theorem NodeRecord.Adds.attachOut (e : EdgeId) : NodeRecord.Adds (·.attachOut e) e .out :=
  ⟨fun _ => rfl, fun _ q => by cases q <;> rfl⟩

theorem NodeRecord.Adds.attachIn (e : EdgeId) : NodeRecord.Adds (·.attachIn e) e .into :=
  ⟨fun _ => rfl, fun _ q => by cases q <;> rfl⟩

theorem NodeRecord.Adds.mem_edgesAt {f : NodeRecord → NodeRecord} {e x : EdgeId} {p q : Port}
    (hf : NodeRecord.Adds f e p) {r : NodeRecord} :
    x ∈ (f r).edgesAt q ↔ x ∈ r.edgesAt q ∨ (x = e ∧ q = p) := by
  rw [hf.edgesAt]
  split <;> simp_all

namespace Sound

variable {dead : NodeId → Prop}

/-- A loaded copy of a node lists committed edges only. -/
theorem lists_of_loaded (h : Sound c n due dead d) (hl : d.Loaded d') {x : EdgeId} {m : NodeId}
    {q : Port} (hx : d'.Lists x m q) : d.Lists x m q ∨ c.Committed (.edge x) := by
  obtain ⟨b, s, ⟨hb, hs⟩, hin⟩ := hx
  rcases hl.volatile (.node m) with hsame | ⟨_, _, y, hy, hcopy⟩
  · exact .inl ⟨b, s, ⟨hsame.symm.trans hb, hs⟩, hin⟩
  · have hyb : y = b := by
      simpa [show d'.draft.volatile.get? (.node m) = some b from hb] using hcopy.symm
    subst hyb
    rw [h.stored] at hy
    obtain ⟨hp, hid⟩ := h.chronicle.stored_past hy
    exact .inr (h.lineage.committed_of_listed ⟨hp, hid, hs⟩ hin)

/-- Nobody lists a fresh edge. -/
theorem not_lists_of_fresh (h : Sound c n due (fun _ => False) d) {e : EdgeId}
    (hf : Fresh c n d (.edge e)) {m : NodeId} {q : Port} : ¬ d.Lists e m q := by
  rintro ⟨b, s, hb, hin⟩
  rcases h.wired.listed hb hin with ⟨y, t, hy, _, hin'⟩ | ⟨y, t, hy, _⟩ | ⟨hdead, _⟩
  · exact hf.uncommitted (h.lineage.committed_of_listed hy hin')
  · exact hf.unmentioned (.inl ⟨y, hy.1⟩)
  · exact hdead

/-- Attaching a new edge to the copy of one of its ends keeps a request
sound. -/
theorem attached (h : Sound c n due dead d) {f : NodeRecord → NodeRecord} {e : EdgeId} {p : Port}
    (hf : NodeRecord.Adds f e p) {m : NodeId} {s : NodeRecord} (hb : NodeIn d.draft.copy? m b s)
    {r : EdgeRecord} (he : EdgeIn d.draft.copy? e a r) (hv : a.version = 0) (hend : r.endAt p = m)
    (hnew : ¬ d.Lists e m p) :
    Sound c n due dead (d.keep (.node m) { b.mapNode f with dirty := true }) := by
  refine h.edited hb.1 (Anchor.mapNode_id ..) (Anchor.mapNode_version ..) rfl ?_
  refine h.wired.rewire h.lineage h.dated hb (Anchor.mapNode_node? hb.2 f) (Anchor.mapNode_id ..)
    (Anchor.mapNode_version ..) (hf.type s) rfl (fun q => ?_) (fun q y hy => ?_) fun q y hy => ?_
  · rw [hf.edgesAt]
    have hnd := h.wired.nodup hb q
    split
    · rename_i hq
      subst hq
      refine List.nodup_append.2 ⟨hnd, by simp, ?_⟩
      rintro y hy z hz rfl
      rw [List.mem_singleton] at hz
      exact hnew ⟨b, s, hb, hz ▸ hy⟩
    · exact hnd
  · exact .inl (hf.mem_edgesAt.2 (.inl hy))
  · rcases hf.mem_edgesAt.1 hy with hy | ⟨rfl, rfl⟩
    · exact .inl hy
    · exact .inr ⟨a, r, he, hv, hend⟩

theorem grows_attached (h : Sound c n due dead d) {f : NodeRecord → NodeRecord} {e : EdgeId}
    {p : Port} (hf : NodeRecord.Adds f e p) {m : NodeId} {s : NodeRecord}
    (hb : NodeIn d.draft.copy? m b s) :
    d.Grows c e m p (d.keep (.node m) { b.mapNode f with dirty := true }) := by
  have hcopy : ∀ j, (d.keep (.node m) { b.mapNode f with dirty := true }).draft.copy? j =
      if j = .node m then some { b.mapNode f with dirty := true } else d.draft.copy? j :=
    fun j => Desk.keep_copy? ..
  have hs : ({ b.mapNode f with dirty := true } : Anchor).node? = some (f s) :=
    Anchor.mapNode_node? hb.2 f
  have hnode : NodeIn (d.keep (.node m) { b.mapNode f with dirty := true }).draft.copy? m
      { b.mapNode f with dirty := true } (f s) := ⟨(hcopy _).trans (if_pos rfl), hs⟩
  refine ⟨(edgeIn_congr_node hcopy).2, ?_, ?_, ?_,
    ⟨_, _, hnode, rfl, hf.mem_edgesAt.2 (.inr ⟨rfl, rfl⟩)⟩⟩
  · rintro id ⟨y, hy⟩
    unfold Desk.Sees
    rw [Desk.look_keep (h.dated.keyed.removed?_of_copy? hb.1)]
    split
    · exact ⟨_, rfl⟩
    · exact ⟨y, hy⟩
  · rintro y m' q ⟨z, t, hz, hdirty, hin⟩
    by_cases hm : m' = m
    · subst hm
      obtain ⟨rfl, rfl⟩ := hz.unique hb
      exact ⟨_, _, hnode, rfl, hf.mem_edgesAt.2 (.inl hin)⟩
    · exact ⟨z, t, hz.keep hcopy hm, hdirty, hin⟩
  · rintro y m' q ⟨z, t, hz, hin⟩
    rcases hz.of_node hcopy with ⟨rfl, hzb, ht⟩ | ⟨_, hz⟩
    · cases hzb
      cases hs.symm.trans ht
      rcases hf.mem_edgesAt.1 hin with hin | ⟨rfl, rfl⟩
      · exact .inl ⟨b, s, hb, hin⟩
      · exact .inr (.inr ⟨rfl, rfl, rfl⟩)
    · exact .inl ⟨z, t, hz, hin⟩

/-- The node may have to be loaded first. -/
theorem grows_loaded (h : Sound c n due dead d) (hl : d.Loaded d') {e : EdgeId} {m : NodeId}
    {p : Port} (hg : d'.Grows c e m p d'') : d.Grows c e m p d'' where
  edges hx := hg.edges ⟨hl.kept hx.1, hx.2⟩
  sees := fun ⟨y, hy⟩ => hg.sees ⟨y, (hl.look_eq _).trans hy⟩
  binds := fun ⟨b, s, hb, hrest⟩ => hg.binds ⟨b, s, ⟨hl.kept hb.1, hb.2⟩, hrest⟩
  only hx := by
    rcases hg.only hx with hx | hx
    · exact (h.lists_of_loaded hl hx).imp_right .inl
    · exact .inr hx
  here := hg.here

/-- Attaching a new edge to one of its ends, which did not list it yet. -/
theorem attach (h : Sound c n due dead d) {f : NodeRecord → NodeRecord} {e : EdgeId} {p : Port}
    (hf : NodeRecord.Adds f e p) (m : NodeId) {r : EdgeRecord} (he : EdgeIn d.draft.copy? e a r)
    (hv : a.version = 0) (hend : r.endAt p = m) (hsees : d.Sees (.node m))
    (hnew : ¬ d.Lists e m p) :
    Work.Ends (Actor.changeNode m f) d (fun _ d' => Sound c n due dead d' ∧ d.Grows c e m p d')
      fun _ _ => False := by
  obtain ⟨x, hx⟩ := hsees
  refine (Desk.change_ends h.agreed _ _).andThen ?_
  rintro before d₂ ⟨rfl, ⟨hnone, _⟩ | ⟨b, d₁, hbefore, hl, hb, rfl⟩⟩
  · rw [hx] at hnone
    cases hnone
  have h₁ := h.loaded hl
  obtain ⟨s, hs⟩ := h₁.node_of_look (h₁.look_of_copy? hb)
  rw [hbefore, Option.bind_some, hs]
  have hnew₁ : ¬ d₁.Lists e m p := by
    intro hin
    rcases h.lists_of_loaded hl hin with hin | hcom
    · exact hnew hin
    · exact (h.dated.born he.1 hv).2.1 hcom
  have hin : NodeIn d₁.draft.copy? m b s := ⟨hb, hs⟩
  exact .pure ⟨h₁.attached hf hin ⟨hl.kept he.1, he.2⟩ hv hend hnew₁,
    h.grows_loaded hl (h₁.grows_attached hf hin)⟩

/-- Attaching a new edge to both its ends, which did not list it yet. -/
theorem attachBoth (h : Sound c n due dead d) {e : EdgeId} {r : EdgeRecord}
    (he : EdgeIn d.draft.copy? e a r) (hv : a.version = 0) (hsees : ∀ p, d.Sees (.node (r.endAt p)))
    (hnew : ∀ m q, ¬ d.Lists e m q) :
    Work.Ends (Actor.changeNode r.source (·.attachOut e)) d
      (fun _ d' => Work.Ends (Actor.changeNode r.target (·.attachIn e)) d'
        (fun _ d'' => Sound c n due dead d'' ∧ d.Joins c e r d'') fun _ _ => False)
      fun _ _ => False := by
  refine (h.attach (.attachOut e) r.source he hv rfl (hsees .out) (hnew _ _)).imp ?_
  rintro _ d₁ ⟨h₁, hg₁⟩
  have hnew₁ : ¬ d₁.Lists e r.target .into := by
    intro hin
    rcases hg₁.only hin with hin | hcom | ⟨_, _, hq⟩
    · exact hnew _ _ hin
    · exact (h.dated.born he.1 hv).2.1 hcom
    · cases hq
  refine (h₁.attach (.attachIn e) r.target (hg₁.edges he) hv rfl (hg₁.sees (hsees .into))
    hnew₁).imp ?_
  rintro _ d₂ ⟨h₂, hg₂⟩
  refine ⟨h₂, {
    edges := fun hx => hg₂.edges (hg₁.edges hx)
    sees := fun hx => hg₂.sees (hg₁.sees hx)
    binds := fun hx => hg₂.binds (hg₁.binds hx)
    only := fun hx => ?_
    here := fun p => ?_ }⟩
  · rcases hg₂.only hx with hx | hcom | ⟨hxe, _⟩
    · exact (hg₁.only hx).imp_right (Or.imp_right fun hx => hx.1)
    · exact .inr (.inl hcom)
    · exact .inr (.inr hxe)
  · cases p with
    | out => exact hg₂.binds hg₁.here
    | into => exact hg₂.here

/-! ## Minting and staging -/

theorem mintNode (h : Sound c (n + 1) due dead d) :
    Work.Ends Actor.mintNode d (fun m d' => d' = d.minted ∧ Fresh c n d' (.node m))
      fun _ _ => False :=
  .bind (.get (.bind (.modify (.pure ⟨rfl, h.fresh_of_names Mint.names_nextNode⟩))))

theorem mintEdge (h : Sound c (n + 1) due dead d) :
    Work.Ends Actor.mintEdge d (fun e d' => d' = d.minted ∧ Fresh c n d' (.edge e) ∧
      d.shared.mint.Names 0 (.edge e)) fun _ _ => False :=
  .bind (.get (.bind (.modify (.pure
    ⟨rfl, h.fresh_of_names Mint.names_nextEdge, Mint.names_nextEdge⟩))))

end Sound

theorem Desk.look_staged {j : ObjectId} :
    (d.staged a).look j = if j = a.id then some { a with dirty := true } else d.look j := by
  by_cases hj : j = a.id
  · rw [if_pos hj]
    refine Desk.look_of_volatile ?_ ?_
    · exact (Draft.stage_removed? ..).trans (if_pos hj)
    · exact (Draft.stage_copy? ..).trans (if_pos hj)
  · rw [if_neg hj]
    exact Desk.look_congr ((Draft.stage_copy? ..).trans (if_neg hj))
      ((Draft.stage_removed? ..).trans (if_neg hj)) rfl

theorem Desk.Sees.staged {id : ObjectId} (h : d.Sees id) : (d.staged a).Sees id := by
  obtain ⟨x, hx⟩ := h
  unfold Desk.Sees
  rw [Desk.look_staged]
  split
  · exact ⟨_, rfl⟩
  · exact ⟨x, hx⟩

/-- The nodes' lists do not change when an edge is staged. -/
theorem Desk.lists_staged {e x : EdgeId} (hid : a.id = .edge e) {m : NodeId} {q : Port}
    (h : (d.staged a).Lists x m q) : d.Lists x m q := by
  have hf : ∀ j, (d.staged a).draft.copy? j =
      if j = .edge e then some { a with dirty := true } else d.draft.copy? j := fun j => by
    rw [← hid]
    exact Draft.stage_copy? ..
  obtain ⟨b, s, hb, hin⟩ := h
  exact ⟨b, s, (nodeIn_congr_edge hf).1 hb, hin⟩

namespace Sound

/-- Staging a new edge makes it due. -/
theorem stageEdge (h : Sound c n due (fun _ => False) d) {e : EdgeId}
    (hf : Fresh c n d (.edge e)) (owner : RootId) (r : EdgeRecord) (hdue : ∀ x, due x → due' x)
    (he : due' e) :
    Work.Ends (Desk.stage (Anchor.ofEdge e owner r)) d (fun _ d' =>
      d' = d.staged (Anchor.ofEdge e owner r) ∧ Sound c n due' (fun _ => False) d' ∧
      EdgeIn d'.draft.copy? e (Anchor.ofEdge e owner r) r) fun _ _ => False := by
  refine .modify ⟨rfl, ?_, ?_, rfl⟩
  · exact h.staged (a := Anchor.ofEdge e owner r) hf rfl
      (h.wired.stageEdge h.lineage rfl rfl hf.uncommitted hf.unmentioned hdue he)
  · exact (Draft.stage_copy? ..).trans (if_pos rfl)

/-- A new directed edge between two nodes that are seen. -/
theorem linkDirected (h : Calm c n d) (owner : RootId) (type : TypeId) (fields : Fields)
    {source target : NodeId} (hs : d.Sees (.node source)) (ht : d.Sees (.node target)) {e : EdgeId}
    (he : Fresh c n d (.edge e)) :
    Work.Ends (do
      Desk.stage (Anchor.ofEdge e owner ⟨type, fields, source, target, true, none⟩)
      Actor.changeNode source (·.attachOut e)
      Actor.changeNode target (·.attachIn e)
      pure e) d
      (fun _ d' => Calm c n d' ∧ ∀ {id}, d.Sees id → d'.Sees id) fun _ _ => False := by
  have hnone : ∀ m q, ¬ d.Lists e m q := fun _ _ => h.not_lists_of_fresh he
  have hdue : ∀ x, False → x = e := fun _ hx => hx.elim
  refine (h.stageEdge he owner _ hdue rfl).andThen ?_
  rintro _ d₁ ⟨hd₁, h₁, he₁⟩
  have hnone₁ : ∀ m q, ¬ d₁.Lists e m q := by
    intro m q hx
    rw [hd₁] at hx
    exact hnone m q (Desk.lists_staged rfl hx)
  have hsees₁ : ∀ {id}, d.Sees id → d₁.Sees id := by
    intro id hid
    rw [hd₁]
    exact hid.staged
  refine (h₁.attachBoth he₁ rfl (fun p => ?_) hnone₁).andThen fun _ d₂ hboth => hboth.andThen ?_
  · cases p with
    | out => exact hsees₁ hs
    | into => exact hsees₁ ht
  rintro _ d₃ ⟨h₃, hj⟩
  refine .pure ⟨h₃.rewired (h₃.wired.undue h.chronicle h₃.dated ?_),
    fun hid => hj.sees (hsees₁ hid)⟩
  rintro x rfl
  exact .inr (.inr ⟨_, _, hj.edges he₁, rfl, hj.here, fun t ht => by cases ht⟩)

/-- A new pair of twins between two nodes that are seen. -/
theorem linkUndirected (h : Calm c n d) (owner : RootId) (type : TypeId) (fields : Fields)
    {source target : NodeId} (hs : d.Sees (.node source)) (ht : d.Sees (.node target))
    {e t : EdgeId} (he : Fresh c n d (.edge e)) (ht' : Fresh c n d (.edge t)) (hne : e ≠ t) :
    Work.Ends (do
      Desk.stage (Anchor.ofEdge t owner ⟨type, fields, target, source, false, some e⟩)
      Desk.stage (Anchor.ofEdge e owner ⟨type, fields, source, target, false, some t⟩)
      Actor.changeNode source (·.attachOut e)
      Actor.changeNode target (·.attachIn e)
      Actor.changeNode target (·.attachOut t)
      Actor.changeNode source (·.attachIn t)
      pure e) d
      (fun _ d' => Calm c n d' ∧ ∀ {id}, d.Sees id → d'.Sees id) fun _ _ => False := by
  have hnone : ∀ x, x = e ∨ x = t → ∀ m q, ¬ d.Lists x m q := by
    rintro x (rfl | rfl) m q
    · exact h.not_lists_of_fresh he
    · exact h.not_lists_of_fresh ht'
  have hdue₁ : ∀ x, False → x = t := fun _ hx => hx.elim
  refine (h.stageEdge ht' owner _ hdue₁ rfl).andThen ?_
  rintro _ d₁ ⟨hd₁, h₁, ht₁⟩
  have he₁ : Fresh c n d₁ (.edge e) := by
    rw [hd₁]
    exact he.staged fun hx => hne (ObjectId.edge.inj hx)
  have hdue₂ : ∀ x, x = t → x = e ∨ x = t := fun _ hx => .inr hx
  refine (h₁.stageEdge he₁ owner _ hdue₂ (.inl rfl)).andThen ?_
  rintro _ d₂ ⟨hd₂, h₂, he₂⟩
  have hkeep₂ : ∀ {x b r}, x ≠ e → EdgeIn d₁.draft.copy? x b r → EdgeIn d₂.draft.copy? x b r := by
    intro x b r hxe hx
    rw [hd₂]
    exact hx.keep (fun j => Draft.stage_copy? ..) hxe
  have ht₂ := hkeep₂ hne.symm ht₁
  have hnone₂ : ∀ x, x = e ∨ x = t → ∀ m q, ¬ d₂.Lists x m q := by
    intro x hx m q hin
    rw [hd₂, hd₁] at hin
    exact hnone x hx m q (Desk.lists_staged rfl (Desk.lists_staged rfl hin))
  have hsees₂ : ∀ {id}, d.Sees id → d₂.Sees id := by
    intro id hid
    rw [hd₂, hd₁]
    exact hid.staged.staged
  refine (h₂.attachBoth he₂ rfl (fun p => ?_) (hnone₂ e (.inl rfl))).andThen
    fun _ d₃ hboth => hboth.andThen ?_
  · cases p with
    | out => exact hsees₂ hs
    | into => exact hsees₂ ht
  rintro _ d₄ ⟨h₄, hj₄⟩
  have hnone₄ : ∀ m q, ¬ d₄.Lists t m q := by
    intro m q hin
    rcases hj₄.only hin with hin | hcom | hx
    · exact hnone₂ t (.inr rfl) m q hin
    · exact ht'.uncommitted hcom
    · exact hne hx.symm
  refine (h₄.attachBoth (hj₄.edges ht₂) rfl (fun p => ?_) hnone₄).andThen
    fun _ d₅ hboth => hboth.andThen ?_
  · cases p with
    | out => exact hj₄.sees (hsees₂ ht)
    | into => exact hj₄.sees (hsees₂ hs)
  rintro _ d₆ ⟨h₆, hj₆⟩
  refine .pure ⟨h₆.rewired (h₆.wired.undue h.chronicle h₆.dated ?_),
    fun hid => hj₆.sees (hj₄.sees (hsees₂ hid))⟩
  -- both new edges are attached, and each is the twin of the other
  have he₆ := hj₆.edges (hj₄.edges he₂)
  have ht₆ := hj₆.edges (hj₄.edges ht₂)
  rintro x (rfl | rfl)
  · refine .inr (.inr ⟨_, _, he₆, rfl, fun p => hj₆.binds (hj₄.here p), fun t' htt => ?_⟩)
    cases htt
    exact ⟨_, _, ht₆, rfl, rfl, fun p => by cases p <;> rfl⟩
  · refine .inr (.inr ⟨_, _, ht₆, rfl, hj₆.here, fun e' hee => ?_⟩)
    cases hee
    exact ⟨_, _, he₆, rfl, rfl, fun p => by cases p <;> rfl⟩

/-- Linking two nodes that are seen. -/
theorem link (h : Calm c (n + 2) d) (actor : Actor) (type : TypeId) (fields : Fields)
    (directed : Bool) {source target : NodeId} (hs : d.Sees (.node source))
    (ht : d.Sees (.node target)) :
    Work.Ends (actor.link source target type fields directed) d
      (fun _ d' => Calm c n d' ∧ ∀ {id}, d.Sees id → d'.Sees id) fun _ _ => False := by
  refine h.mintEdge.andThen ?_
  rintro e d₁ ⟨rfl, he, _⟩
  cases directed with
  | true =>
    exact (h.minted.linkDirected actor.requester type fields hs ht he).mono
      (fun _ _ ⟨h', hsees⟩ => ⟨h'.fewer (Nat.le_succ n), hsees⟩) fun _ _ hf => hf
  | false =>
    refine h.minted.mintEdge.andThen ?_
    rintro t d₂ ⟨rfl, ht', hnamed⟩
    have hne : e ≠ t := by
      rintro rfl
      exact he.unnamed (Nat.succ_pos n) hnamed
    exact h.minted.minted.linkUndirected actor.requester type fields hs ht he.minted ht' hne

end Sound

end Wayfarer
