import Wayfarer.Proofs.Sound.Linking
import Wayfarer.Proofs.Sound.Removing

/-!
# Operations

Every operation on the graph keeps a request calm, whether it answers or fails:
`Op.run_calm`. An operation that only reads changes nothing that the request
sees.
-/

namespace Wayfarer

variable {c : Setting} {n : Nat} {d d' : Desk Vault}

/-! ## Reading -/

/-- A check that passes has seen the object. -/
theorem Sound.check {due : EdgeId → Prop} {dead : NodeId → Prop} (h : Sound c n due dead d)
    (actor : Actor) (id : ObjectId) (level : Level) :
    Work.Ends (actor.check id level) d (fun a d' => d.Loaded d' ∧ d.look id = some a)
      fun _ d' => d.Loaded d' := by
  refine (Desk.read_ends h.agreed id).surely.andThen ?_
  rintro found d₁ ⟨rfl, hl, _⟩
  cases ha : d.look id with
  | none => exact .throw hl
  | some a =>
    simp only
    split
    · exact .pure ⟨hl, rfl⟩
    · exact .throw hl

/-! ## Creating and linking -/

namespace Sound

theorem create (h : Calm c (n + 1) d) (actor : Actor) (type : String) (fields : Fields) :
    Work.Ends (actor.create type fields) d
      (fun m d' => Calm c n d' ∧ d'.Sees (.node m) ∧ ∀ {id}, d.Sees id → d'.Sees id)
      fun _ d' => Calm c n d' := by
  have hfail : ∀ {d'}, d.Loaded d' ∧ Calm c (n + 1) d' → Calm c n d' := fun hd =>
    hd.2.fewer (Nat.le_succ n)
  refine .bind ((h.reads (.resolve actor .node type)).mono ?_ fun _ _ hd => hfail hd)
  rintro typeId d₁ ⟨hl₁, h₁⟩
  split
  · exact .throw (hfail ⟨hl₁, h₁⟩)
  refine .bind ((h₁.reads (.fillFields actor typeId fields)).mono ?_
    fun _ _ hd => hd.2.fewer (Nat.le_succ n))
  rintro filled d₂ ⟨hl₂, h₂⟩
  refine h₂.mintNode.surely.andThen ?_
  rintro m d₃ ⟨rfl, hm⟩
  have hnone : ∀ p, (NodeRecord.isolated typeId filled).edgesAt p = [] := by
    intro p
    cases p <;> rfl
  refine .bind (.modify (.pure ⟨?_, ?_, ?_⟩))
  · exact h₂.minted.staged (a := Anchor.ofNode m actor.requester _) hm rfl
      (h₂.minted.wired.stageNode h.lineage rfl rfl hnone hm.uncommitted hm.unmentioned)
  · exact ⟨_, Desk.look_staged.trans (if_pos rfl)⟩
  · rintro id ⟨x, hx⟩
    have hsees : d₂.minted.Sees id := ⟨x, ((hl₂.look_eq id).trans (hl₁.look_eq id)).trans hx⟩
    exact hsees.staged

/-- A condition that goes along with being calm: reading, creating and linking
keep it. -/
structure Standing (c : Setting) (P : Desk Vault → Prop) : Prop where
  loaded : ∀ {d d' : Desk Vault}, P d → d.Loaded d' → P d'
  create : ∀ {n : Nat} {d : Desk Vault} (actor : Actor) (type : String) (fields : Fields),
    Calm c (n + 1) d → P d → Work.Ends (actor.create type fields) d (fun _ => P) fun _ => P
  link : ∀ {n : Nat} {d : Desk Vault} (actor : Actor) (type : TypeId) (fields : Fields)
    (directed : Bool) {source target : NodeId}, Calm c (n + 2) d → P d → d.Sees (.node source) →
    d.Sees (.node target) → Work.Ends (actor.link source target type fields directed) d
      (fun _ => P) fun _ => P

theorem Standing.always : Standing c fun _ => True := by
  refine ⟨fun _ _ => trivial, ?_, ?_⟩ <;> intros <;> exact .trivial

section Standing

variable {P : Desk Vault → Prop} (hP : Standing c P)

include hP

theorem createLinked (h : Calm c (n + 3) d) (hd : P d) (actor : Actor) (source : NodeId)
    (type : String) (fields : Fields) (edgeType : String) :
    Work.Ends (actor.createLinked source type fields edgeType) d (fun _ d' => Calm c n d' ∧ P d')
      fun _ d' => Calm c n d' ∧ P d' := by
  have hfail : ∀ {d' d''}, Calm c (n + 3) d' ∧ P d' → d'.Loaded d'' → Calm c n d'' ∧ P d'' :=
    fun hd hl => ⟨(hd.1.loaded hl).fewer (by omega), hP.loaded hd.2 hl⟩
  refine .bind ((h.reads (.resolve actor .edge edgeType)).mono ?_ fun _ _ he => hfail ⟨h, hd⟩ he.1)
  rintro edgeTypeId d₁ ⟨hl₁, h₁⟩
  have hd₁ := hP.loaded hd hl₁
  refine .bind ((h₁.reads (.fillFields actor edgeTypeId _)).mono ?_
    fun _ _ he => hfail ⟨h₁, hd₁⟩ he.1)
  rintro filled d₂ ⟨hl₂, h₂⟩
  have hd₂ := hP.loaded hd₁ hl₂
  refine .bind ((h₂.check actor _ .connect).mono ?_ fun _ _ hl => hfail ⟨h₂, hd₂⟩ hl)
  rintro x d₃ ⟨hl₃, hx⟩
  have h₃ := h₂.loaded hl₃
  have hd₃ := hP.loaded hd₂ hl₃
  have hsource : d₃.Sees (.node source) := ⟨x, (hl₃.look_eq _).trans hx⟩
  refine .bind (((h₃.create actor type fields).and (hP.create actor type fields h₃ hd₃)).mono ?_
    fun _ _ he => ⟨he.1.fewer (by omega), he.2⟩)
  rintro m d₄ ⟨⟨h₄, hm, hsees⟩, hd₄⟩
  refine .bind (((h₄.link actor edgeTypeId filled true (hsees hsource) hm).and
    (hP.link actor edgeTypeId filled true h₄ hd₄ (hsees hsource) hm)).mono ?_
    fun _ _ hf => hf.1.elim)
  rintro e d₅ ⟨⟨h₅, _⟩, hd₅⟩
  exact .pure ⟨h₅, hd₅⟩

theorem connect (h : Calm c (n + 2) d) (hd : P d) (actor : Actor) (source target : NodeId)
    (edgeType : String) (fields : Fields) (directed : Bool) :
    Work.Ends (actor.connect source target edgeType fields directed) d
      (fun _ d' => Calm c n d' ∧ P d') fun _ d' => Calm c n d' ∧ P d' := by
  have hfail : ∀ {d' d''}, Calm c (n + 2) d' ∧ P d' → d'.Loaded d'' → Calm c n d'' ∧ P d'' :=
    fun hd hl => ⟨(hd.1.loaded hl).fewer (by omega), hP.loaded hd.2 hl⟩
  refine .bind ((h.reads (.resolve actor .edge edgeType)).mono ?_ fun _ _ he => hfail ⟨h, hd⟩ he.1)
  rintro typeId d₁ ⟨hl₁, h₁⟩
  have hd₁ := hP.loaded hd hl₁
  refine .bind ((h₁.reads (.fillFields actor typeId fields)).mono ?_
    fun _ _ he => hfail ⟨h₁, hd₁⟩ he.1)
  rintro filled d₂ ⟨hl₂, h₂⟩
  have hd₂ := hP.loaded hd₁ hl₂
  refine .bind ((h₂.check actor _ .connect).mono ?_ fun _ _ hl => hfail ⟨h₂, hd₂⟩ hl)
  rintro x d₃ ⟨hl₃, hx⟩
  have h₃ := h₂.loaded hl₃
  have hd₃ := hP.loaded hd₂ hl₃
  refine .bind ((h₃.check actor _ .connect).mono ?_ fun _ _ hl => hfail ⟨h₃, hd₃⟩ hl)
  rintro y d₄ ⟨hl₄, hy⟩
  have h₄ := h₃.loaded hl₄
  have hsource : d₄.Sees (.node source) :=
    ⟨x, (hl₄.look_eq _).trans ((hl₃.look_eq _).trans hx)⟩
  have htarget : d₄.Sees (.node target) := ⟨y, (hl₄.look_eq _).trans hy⟩
  exact ((h₄.link actor typeId filled directed hsource htarget).and
    (hP.link actor typeId filled directed h₄ (hP.loaded hd₃ hl₄) hsource htarget)).mono
    (fun _ _ he => ⟨he.1.1, he.2⟩) fun _ _ hf => hf.1.elim

/-- Linking a node to several others, all of which are seen. -/
theorem links (actor : Actor) (type : TypeId) (fields : Fields) (directed : Bool) {source : NodeId}
    {targets : List NodeId} (h : Calm c (n + 2 * targets.length) d) (hd : P d)
    (hs : d.Sees (.node source)) (ht : ∀ m ∈ targets, d.Sees (.node m)) :
    Work.Ends (targets.mapM fun target => actor.link source target type fields directed) d
      (fun _ d' => Calm c n d' ∧ P d') fun _ _ => False := by
  have hstart : (Calm c (n + 2 * targets.length) d ∧ P d) ∧ d.Sees (.node source) ∧
      ∀ m ∈ targets, d.Sees (.node m) := ⟨⟨h, hd⟩, hs, ht⟩
  refine (Work.Ends.mapM (J := fun rest d => (Calm c (n + 2 * rest.length) d ∧ P d) ∧
    d.Sees (.node source) ∧ ∀ m ∈ rest, d.Sees (.node m)) hstart ?_).mono
    (fun _ _ hd => hd.1) fun _ _ hf => hf
  rintro target rest d₁ ⟨⟨h₁, hd₁⟩, hs₁, ht₁⟩
  have h₁' : Calm c (n + 2 * rest.length + 2) d₁ := h₁.fewer (by simp; omega)
  have htarget := ht₁ target (by simp)
  refine ((h₁'.link actor type fields directed hs₁ htarget).and
    (hP.link actor type fields directed h₁' hd₁ hs₁ htarget)).mono ?_ fun _ _ hf => hf.1
  rintro _ d₂ ⟨⟨h₂, hsees⟩, hd₂⟩
  exact ⟨⟨h₂, hd₂⟩, hsees hs₁, fun m hm => hsees (ht₁ m (by simp [hm]))⟩

theorem connectMany (actor : Actor) (source : NodeId) {targets : List NodeId} (edgeType : String)
    (fields : Fields) (directed : Bool) (h : Calm c (n + 2 * targets.length) d) (hd : P d) :
    Work.Ends (actor.connectMany source targets edgeType fields directed) d
      (fun _ d' => Calm c n d' ∧ P d') fun _ d' => Calm c n d' ∧ P d' := by
  have hfail : ∀ {d' d''}, Calm c (n + 2 * targets.length) d' ∧ P d' → d'.Loaded d'' →
      Calm c n d'' ∧ P d'' :=
    fun hd hl => ⟨(hd.1.loaded hl).fewer (by omega), hP.loaded hd.2 hl⟩
  refine .bind ((h.reads (.resolve actor .edge edgeType)).mono ?_ fun _ _ he => hfail ⟨h, hd⟩ he.1)
  rintro typeId d₁ ⟨hl₁, h₁⟩
  have hd₁ := hP.loaded hd hl₁
  refine .bind ((h₁.reads (.fillFields actor typeId fields)).mono ?_
    fun _ _ he => hfail ⟨h₁, hd₁⟩ he.1)
  rintro filled d₂ ⟨hl₂, h₂⟩
  have hd₂ := hP.loaded hd₁ hl₂
  refine .bind ((h₂.check actor _ .connect).mono ?_ fun _ _ hl => hfail ⟨h₂, hd₂⟩ hl)
  rintro x d₃ ⟨hl₃, hx⟩
  have h₃ := h₂.loaded hl₃
  have hd₃ := hP.loaded hd₂ hl₃
  -- the checks only read; after them every target so far has been seen
  have hchecks : Work.Ends (targets.forM fun (target : NodeId) => do
      let _ ← actor.check target .connect) d₃
      (fun _ d' => d₃.Loaded d' ∧ ∀ m ∈ targets, d₃.Sees (.node m)) fun _ d' => d₃.Loaded d' := by
    have hstart : d₃.Loaded d₃ ∧ ∀ m ∈ targets, m ∈ targets ∨ d₃.Sees (.node m) :=
      ⟨.refl h₃.agreed, fun _ hm => .inl hm⟩
    refine (Work.Ends.forM (J := fun rest d' => d₃.Loaded d' ∧
      ∀ m ∈ targets, m ∈ rest ∨ d₃.Sees (.node m)) hstart ?_).imp ?_
    · rintro target rest d₄ ⟨hl₄, hseen⟩
      refine .bind (((h₃.loaded hl₄).check actor _ .connect).mono ?_ fun _ _ hd => hl₄.trans hd)
      rintro y d₅ ⟨hl₅, hy⟩
      refine .pure ⟨hl₄.trans hl₅, fun m hm => ?_⟩
      rcases hseen m hm with hm | hm
      · rcases List.mem_cons.1 hm with rfl | hm
        · exact .inr ⟨y, (hl₄.look_eq _).symm.trans hy⟩
        · exact .inl hm
      · exact .inr hm
    · rintro _ d₄ ⟨hl₄, hseen⟩
      exact ⟨hl₄, fun m hm => (hseen m hm).resolve_left (by simp)⟩
  refine .bind (hchecks.mono ?_ fun _ _ hl => hfail ⟨h₃, hd₃⟩ hl)
  rintro _ d₄ ⟨hl₄, hseen⟩
  refine (links hP actor typeId filled directed (h₃.loaded hl₄) (hP.loaded hd₃ hl₄) ?_
    fun m hm => ?_).mono (fun _ _ hd => hd) fun _ _ hf => hf.elim
  · exact ⟨x, (hl₄.look_eq _).trans ((hl₃.look_eq _).trans hx)⟩
  · obtain ⟨y, hy⟩ := hseen m hm
    exact ⟨y, (hl₄.look_eq _).trans hy⟩

end Standing

end Sound

/-! ## Removing -/

namespace Sound

theorem dead_none : ∀ m : NodeId, False ↔ (Table.empty : OrdSet NodeId).contains m = true := by
  simp [Table.contains]

theorem Removing.unlink (h : Calm c n d) {edges rest : List EdgeId} {e : EdgeId}
    (hpaired : d.Paired c edges) (he : e ∈ edges)
    (hr : Removing c n (fun _ => False) d edges (e :: rest) d') :
    Work.Ends (Actor.unlink e) d' (fun _ d'' => Removing c n (fun _ => False) d edges rest d'')
      fun _ _ => False := by
  rw [Actor.unlink_eq]
  exact (hr.step h dead_none (fun _ hm => hm.elim) hpaired he).andThen fun _ _ hd => .pure hd

/-- Removing several edges one after another. -/
theorem unlinks (h : Calm c n d) {edges : List EdgeId} (hpaired : d.Paired c edges) :
    Work.Ends (edges.forM Actor.unlink) d (fun _ d' => Calm c n d' ∧ d.Shrinks d' ∧
      ∀ e ∈ edges, d'.look (.edge e) = none) fun _ _ => False := by
  have hstart : (∀ e ∈ edges, e ∈ edges) ∧ Removing c n (fun _ => False) d edges edges d :=
    ⟨fun _ he => he, .start h edges⟩
  refine (Work.Ends.forM (J := fun rest d' => (∀ e ∈ rest, e ∈ edges) ∧
    Removing c n (fun _ => False) d edges rest d') hstart ?_).imp ?_
  · rintro e rest d₁ ⟨hsub, hr⟩
    refine (hr.unlink h hpaired (hsub e (by simp))).imp ?_
    exact fun _ _ hd => ⟨fun x hx => hsub x (by simp [hx]), hd⟩
  · exact fun _ _ hd => hd.2.finish

theorem disconnect (h : Calm c n d) (actor : Actor) (e : EdgeId) :
    Work.Ends (actor.disconnect e) d (fun _ d' => Calm c n d') fun _ d' => Calm c n d' := by
  refine (h.loadEdge e).surely.andThen ?_
  rintro found d₁ ⟨hl₁, ⟨rfl, _⟩ | ⟨a, r, rfl, hlook, ha⟩⟩
  · exact .bind (.throw (h.loaded hl₁))
  have h₁ := h.loaded hl₁
  refine .bind (.pure (.bind ((h₁.check actor _ .connect).mono ?_ fun _ _ hd => h₁.loaded hd)))
  rintro x d₂ ⟨hl₂, _⟩
  have h₂ := h₁.loaded hl₂
  refine .bind ((h₂.check actor _ .connect).mono ?_ fun _ _ hd => h₂.loaded hd)
  rintro y d₃ ⟨hl₃, _⟩
  have h₃ := h₂.loaded hl₃
  have hlook₃ : d₃.look (.edge e) = some a :=
    (hl₃.look_eq _).trans ((hl₂.look_eq _).trans ((hl₁.look_eq _).trans hlook))
  have hpaired : d₃.Paired c (e :: r.twin.toList) := by
    intro x hx t ht
    rcases List.mem_cons.1 hx with rfl | hx
    · obtain ⟨b, s, hb, hs, ht⟩ := ht
      rw [hlook₃] at hb
      cases hb
      rw [ha.2] at hs
      cases hs
      exact .inl (by simp [ht])
    · have hback := h₃.twins_back ⟨a, r, hlook₃, ha.2, by simpa using hx⟩ ht
      exact .inl (by simp [hback])
  have hstart := Removing.start h₃ (e :: r.twin.toList)
  refine (hstart.unlink h₃ hpaired (by simp)).surely.andThen ?_
  intro _ d₄ hr₄
  cases ht : r.twin with
  | none =>
    rw [ht] at hr₄
    exact .pure hr₄.finish.1
  | some t =>
    rw [ht] at hr₄ hpaired
    exact (hr₄.unlink h₃ hpaired (by simp)).mono (fun _ _ hd => hd.finish.1) fun _ _ hf => hf.elim

theorem destroyable {due : EdgeId → Prop} {dead : NodeId → Prop} (h : Sound c n due dead d)
    (actor : Actor) (m : NodeId) :
    Work.Ends (actor.destroyable m) d (fun r d' => d.Loaded d' ∧ ∃ a, d.look (.node m) = some a ∧
      a.node? = some r ∧ r.type ≠ rootType) fun _ d' => d.Loaded d' := by
  refine (h.check actor _ .write).andThen ?_
  rintro a d₁ ⟨hl, ha⟩
  cases hr : a.node? with
  | none => exact .bind (.throw hl)
  | some r =>
    refine .bind (.pure ?_)
    split
    · exact .throw hl
    · exact .pure ⟨hl, a, ha, hr, ‹_›⟩

theorem twinOf {due : EdgeId → Prop} {dead : NodeId → Prop} (h : Sound c n due dead d)
    (e : EdgeId) :
    Work.Ends (Actor.twinOf e) d (fun t d' => d.Loaded d' ∧ ∀ x, t = some x ↔ d.Twins e x)
      fun _ _ => False := by
  refine .tryCatch ((h.loadEdge e).surely.andThen ?_)
  rintro found d₁ ⟨hl, ⟨rfl, hn⟩ | ⟨a, r, rfl, ha, hr⟩⟩
  · refine .pure ⟨hl, fun x => ⟨fun hx => ?_, fun ⟨a, _, ha, _⟩ => ?_⟩⟩
    · cases hx
    · rw [hn] at ha
      cases ha
  · refine .pure ⟨hl, fun x => ⟨fun hx => ⟨a, r, ha, hr.2, hx⟩, fun ⟨a', r', ha', hr', hx⟩ => ?_⟩⟩
    rw [ha] at ha'
    cases ha'
    rw [hr.2] at hr'
    cases hr'
    exact hx

/-- The edges to be removed with a node are those that it lists and their
twins. -/
theorem doomed {due : EdgeId → Prop} {dead : NodeId → Prop} (h : Sound c n due dead d)
    (r : NodeRecord) :
    Work.Ends (Actor.doomed r) d (fun edges d' => d.Loaded d' ∧ ∀ x, edges.contains x = true ↔
      ∃ e ∈ r.outgoing ++ r.incoming, x = e ∨ d.Twins e x) fun _ _ => False := by
  have hstart : d.Loaded d ∧ ∀ x, (∃ e ∈ r.outgoing ++ r.incoming, x = e ∨ d.Twins e x) ↔
      (Table.empty : OrdSet EdgeId).contains x = true ∨
        ∃ e ∈ r.outgoing ++ r.incoming, x = e ∨ d.Twins e x :=
    ⟨.refl h.agreed, by simp [Table.contains]⟩
  refine (Work.Ends.foldlM (K := fun rest (acc : OrdSet EdgeId) d' => d.Loaded d' ∧
    ∀ x, (∃ e ∈ r.outgoing ++ r.incoming, x = e ∨ d.Twins e x) ↔
      acc.contains x = true ∨ ∃ e ∈ rest, x = e ∨ d.Twins e x) hstart ?_).imp ?_
  · rintro e rest acc d₁ ⟨hl₁, hacc⟩
    refine ((h.loaded hl₁).twinOf e).andThen ?_
    rintro t d₂ ⟨hl₂, ht⟩
    refine .pure ⟨hl₁.trans hl₂, fun x => ?_⟩
    have htwins : d₁.Twins e x ↔ d.Twins e x := by
      unfold Desk.Twins
      rw [hl₁.look_eq]
    rw [hacc, OrdSet.contains_addAll, OrdSet.contains_add, Option.mem_toList, ht, htwins]
    constructor
    · rintro (hx | ⟨y, hy, hx⟩)
      · exact .inl (.inr (.inr hx))
      · rcases List.mem_cons.1 hy with rfl | hy
        · rcases hx with hx | hx
          · exact .inl (.inr (.inl hx))
          · exact .inl (.inl hx)
        · exact .inr ⟨y, hy, hx⟩
    · rintro ((hx | hx | hx) | ⟨y, hy, hx⟩)
      · exact .inr ⟨e, by simp, .inr hx⟩
      · exact .inr ⟨e, by simp, .inl hx⟩
      · exact .inl hx
      · exact .inr ⟨y, by simp [hy], hx⟩
  · rintro edges d₁ ⟨hl₁, hacc⟩
    refine ⟨hl₁, fun x => ?_⟩
    rw [hacc]
    simp

end Sound

namespace Sound

theorem destroy (h : Calm c n d) (actor : Actor) (m : NodeId) :
    Work.Ends (actor.destroy m) d (fun _ d' => Calm c n d') fun _ d' => Calm c n d' := by
  refine .bind ((h.destroyable actor m).mono ?_ fun _ _ hd => h.loaded hd)
  rintro r d₁ ⟨hl₁, a, ha, hr, hty⟩
  have h₁ := h.loaded hl₁
  refine (h₁.doomed r).surely.andThen ?_
  rintro edges d₂ ⟨hl₂, hedges⟩
  have h₂ := h₁.loaded hl₂
  have htwins : ∀ {e t}, d₂.Twins e t → d₁.Twins e t := (Desk.Shrinks.of_loaded hl₂).twins
  have hpaired : d₂.Paired c edges.keys := by
    intro x hx t ht
    rw [Table.mem_keys_iff_contains, hedges] at hx
    refine .inl ?_
    rw [Table.mem_keys_iff_contains, hedges]
    obtain ⟨e, he, rfl | hxe⟩ := hx
    · exact ⟨x, he, .inr (htwins ht)⟩
    · exact ⟨e, he, .inl (h₁.twins_back hxe (htwins ht))⟩
  refine (h₂.unlinks hpaired).surely.andThen ?_
  rintro _ d₃ ⟨h₃, hs₃, hnone⟩
  refine (h₃.deleteNode ?_).mono (fun _ _ hd => hd.1) fun _ _ hf => hf.elim
  intro b s hb hs
  -- the node lists nothing that it did not list when it was checked
  obtain ⟨b', s', hb', hs', hty', hsub⟩ := hs₃.nodes hb hs
  rw [hl₂.look_eq, hl₁.look_eq, ha] at hb'
  cases hb'
  rw [hr] at hs'
  cases hs'
  refine ⟨?_, fun p e he => hnone e ?_⟩
  · rw [hty', Anchor.type_of_node? hr]
    exact hty
  · rw [Table.mem_keys_iff_contains, hedges]
    refine ⟨e, ?_, .inl rfl⟩
    have hin := hsub p he
    cases p with
    | out => exact List.mem_append_left _ hin
    | into => exact List.mem_append_right _ hin

theorem destroyIsolated (h : Calm c n d) (actor : Actor) (m : NodeId) :
    Work.Ends (actor.destroyIsolated m) d (fun _ d' => Calm c n d') fun _ d' => Calm c n d' := by
  refine .bind ((h.destroyable actor m).mono ?_ fun _ _ hd => h.loaded hd)
  rintro r d₁ ⟨hl₁, a, ha, hr, hty⟩
  have h₁ := h.loaded hl₁
  split
  · exact .throw h₁
  rename_i hisolated
  refine (h₁.deleteNode ?_).mono (fun _ _ hd => hd.1) fun _ _ hf => hf.elim
  intro b s hb hs
  rw [hl₁.look_eq, ha] at hb
  cases hb
  rw [hr] at hs
  cases hs
  refine ⟨Anchor.type_of_node? hr ▸ hty, fun p e he => ?_⟩
  have hempty : r.outgoing = [] ∧ r.incoming = [] := by
    simpa [NodeRecord.isIncident] using hisolated
  cases p with
  | out =>
    rw [NodeRecord.edgesAt, hempty.1] at he
    cases he
  | into =>
    rw [NodeRecord.edgesAt, hempty.2] at he
    cases he

/-! ## Editing -/

theorem updateLinked (h : Calm c n d) {change : Anchor → Anchor} (ht : Desk.Tame change)
    (id : ObjectId) :
    Work.Ends (Actor.updateLinked id change) d (fun _ d' => Calm c n d')
      fun _ d' => Calm c n d' := by
  refine (h.update ht id).surely.andThen ?_
  intro found d₁ h₁
  refine .bind (((h₁.reads (.part id found)).mono ?_) fun _ _ hd => hd.2)
  rintro before d₂ ⟨_, h₂⟩
  split
  · exact .pure h₂
  · refine (h₂.update ht _).surely.andThen ?_
    intro found' d₃ h₃
    exact .bind ((h₃.reads (.part _ found')).mono (fun _ _ hd => .pure hd.2) fun _ _ hd => hd.2)

theorem setField (h : Calm c n d) (actor : Actor) (id : ObjectId) (field : String)
    (value : Value) :
    Work.Ends (actor.setField id field value) d (fun _ d' => Calm c n d')
      fun _ d' => Calm c n d' := by
  refine .bind ((h.check actor id .write).mono ?_ fun _ _ hd => h.loaded hd)
  rintro a d₁ ⟨hl₁, _⟩
  have h₁ := h.loaded hl₁
  simp only
  split
  · exact .throw h₁
  · exact (h₁.updateLinked (.withFields _) id).andThen fun _ _ hd => .pure hd

theorem changeAccess (h : Calm c n d) (actor : Actor) (id : ObjectId) (change : Access → Access) :
    Work.Ends (actor.changeAccess id change) d (fun _ d' => Calm c n d')
      fun _ d' => Calm c n d' := by
  refine .bind ((h.check actor id .write).mono ?_ fun _ _ hd => h.loaded hd)
  rintro a d₁ ⟨hl₁, _⟩
  exact ((h.loaded hl₁).updateLinked (.access _) id).andThen fun _ _ hd => .pure hd

end Sound

/-! ## All operations -/

/-- Every operation keeps a request calm, also when it fails. -/
theorem Op.run_calm (op : Op) (actor : Actor) (h : Calm c (n + op.mints) d) :
    Work.Ends (op.run actor) d (fun _ d' => Calm c n d') fun _ d' => Calm c n d' := by
  cases op with
  | create type fields =>
    exact (h.create actor type fields).mono (fun _ _ hd => hd.1) fun _ _ hd => hd
  | createLinked source type fields edgeType =>
    exact (Sound.createLinked .always h trivial actor source type fields edgeType).mono
      (fun _ _ hd => hd.1) fun _ _ hd => hd.1
  | connect source target edgeType fields directed =>
    exact (Sound.connect .always h trivial actor source target edgeType fields directed).mono
      (fun _ _ hd => hd.1) fun _ _ hd => hd.1
  | connectMany source targets edgeType fields directed =>
    exact (Sound.connectMany .always actor source edgeType fields directed h trivial).mono
      (fun _ _ hd => hd.1) fun _ _ hd => hd.1
  | disconnect e => exact h.disconnect actor e
  | destroy m => exact h.destroy actor m
  | destroyIsolated m => exact h.destroyIsolated actor m
  | setField id field value => exact h.setField actor id field value
  | grant id level =>
    exact (h.changeAccess actor id _).andThen fun _ _ hd => .pure hd
  | revoke id =>
    exact (h.changeAccess actor id _).andThen fun _ _ hd => .pure hd
  | allow id root level =>
    exact (h.changeAccess actor id _).andThen fun _ _ hd => .pure hd
  | disallow id root =>
    exact (h.changeAccess actor id _).andThen fun _ _ hd => .pure hd
  | _ => exact (h.reads (.run rfl actor)).mono (fun _ _ hd => hd.2) fun _ _ hd => hd.2

end Wayfarer
