import Wayfarer.Proofs.Holdings
import Wayfarer.Proofs.Minting
import Wayfarer.Proofs.Wiring

/-!
# What operations are made of

However many operations there are, they change a draft in few ways: they stage a
new node or new edges, attach and detach edges, set a field, change an access
list, and remove things. A condition on desks that these keep (`Strokes`) is
kept by every operation that is given acceptable things (`Strokes.run`), and by
the reclaiming at the end of a request.
-/

namespace Wayfarer

/-- What may be given to operations: type names and fields of new nodes and of
new edges, and values. -/
structure Terms where
  node : String → Fields → Prop
  edge : String → Fields → Prop
  value : Value → Prop

/-- Whether all that an operation is given is acceptable. -/
def Op.Meets (terms : Terms) : Op → Prop
  | .create type fields => terms.node type fields
  | .createLinked _ type fields edgeType =>
      terms.node type fields ∧ terms.edge edgeType Fields.empty
  | .connect _ _ edgeType fields _ | .connectMany _ _ edgeType fields _ =>
      terms.edge edgeType fields
  | .setField _ _ value => terms.value value
  | _ => True

/-- A type is found under its name and has the kind that was asked for. -/
theorem Taxonomy.resolveKind_eq_some {t : Taxonomy} {kind : Kind} {name : String} {type : TypeId}
    (h : t.resolveKind kind name = some type) :
    type = TypeId.ofName name ∧ ∃ a, t.types.get? type = some a ∧ a.kind = kind := by
  unfold Taxonomy.resolveKind at h
  generalize TypeId.ofName name = id at h ⊢
  cases ha : t.types.get? id with
  | none => simp [ha] at h
  | some a =>
    simp only [ha, Option.ite_none_right_eq_some, Option.some.injEq] at h
    obtain ⟨hkind, rfl⟩ := h
    exact ⟨rfl, a, ha, hkind⟩

namespace Terms

/-- A record for a new node: a declared type other than that of roots, and its
defaults with what was given in their place. -/
def MakesNode (terms : Terms) (rules : Rulebook) (record : NodeRecord) : Prop :=
  ∃ name given, rules.types.resolveKind .node name = some record.type ∧ name ≠ rootTypeName ∧
    terms.node name given ∧
      (∀ requester, (⟨rules, requester⟩ : Actor).filledFields record.type given =
      .ok record.fields) ∧ record = .isolated record.type record.fields

/-- The type and the fields of new edges. -/
def MakesEdge (terms : Terms) (rules : Rulebook) (type : TypeId) (fields : Fields) : Prop :=
  ∃ name given, rules.types.resolveKind .edge name = some type ∧ terms.edge name given ∧
    ∀ requester, (⟨rules, requester⟩ : Actor).filledFields type given = .ok fields

end Terms

/-- The record of an edge that a link is made of. -/
def EdgeRecord.between (type : TypeId) (fields : Fields) (source target : NodeId)
    (twin : Option EdgeId) : EdgeRecord :=
  ⟨type, fields, source, target, twin.isNone, twin⟩

variable {σ : Type} [Durable σ]

/-- A condition on desks, given how many identities may still be minted, that is
kept by everything that operations are made of. -/
structure Strokes (rules : Rulebook) (terms : Terms) (expendable : NodeId → Prop)
    (I : Nat → Desk σ → Prop) : Prop where
  browses : ∀ n, Desk.Browses (I n)
  fewer : ∀ {n k d}, I (n + k) d → I n d
  keyed : ∀ {n d}, I n d → d.draft.Keyed
  node : ∀ {n d} {record : NodeRecord} (owner : RootId), terms.MakesNode rules record →
    I (n + 1) d →
    I n (d.minted.staged (.ofNode d.shared.mint.nextNode owner record))
  edge : ∀ {n d type fields} (owner : RootId) (source target : NodeId),
    terms.MakesEdge rules type fields → I (n + 1) d →
      I n (d.minted.staged (.ofEdge d.shared.mint.nextEdge owner
        (.between type fields source target none)))
  pair : ∀ {n d type fields} (owner : RootId) (source target : NodeId),
    terms.MakesEdge rules type fields → I (n + 2) d →
      I n ((d.minted.minted.staged (.ofEdge d.minted.shared.mint.nextEdge owner
        (.between type fields target source (some d.shared.mint.nextEdge)))).staged
          (.ofEdge d.shared.mint.nextEdge owner
            (.between type fields source target (some d.minted.shared.mint.nextEdge))))
  adjust : ∀ {n d} {m : NodeId} {a} {f : NodeRecord → NodeRecord}, I n d →
    d.draft.copy? m = some a → (∀ r, (f r).type = r.type ∧ (f r).fields = r.fields) →
      I n (d.keep m { a.mapNode f with dirty := true })
  access : ∀ {n d id a} (access : Access), I n d → d.draft.copy? id = some a →
    I n (d.keep id { a with access := access, dirty := true })
  field : ∀ {n d id a id' b field value} {actor : Actor}, actor.rulebook = rules → I n d →
    d.draft.copy? id = some a →
      actor.fieldFault? a.type (actor.declared a.type) field value = none → terms.value value →
        (id' = id ∨ ∃ twin, a.edge?.bind (·.twin) = some twin ∧ id' = .edge twin) →
          d.draft.copy? id' = some b →
            I n (d.keep id' { b.withFields (b.fields.set field value) with dirty := true })
  bury : ∀ {n d id a}, I n d → d.draft.copy? id = some a → (∀ m, id = .node m → expendable m) →
    I n (d.bury id a)
  seen : ∀ {n d} {m : NodeId} {a}, I n d → d.draft.copy? m = some a → a.type ≠ rootType →
    expendable m

/-! ## Changes to one object -/

section Changes

variable {I : Desk σ → Prop}

/-- An update loads an object and then changes what was found. -/
theorem Desk.Browses.updates (h : Browses I) {d : Desk σ} (hd : I d) {id : ObjectId}
    {change : Anchor → Anchor} {Q : Option Anchor → Desk σ → Prop} (hnone : ∀ d', I d' → Q none d')
    (hsome : ∀ a d', I d' → d'.draft.copy? id = some a →
      Q (some a) (d'.keep id { change a with dirty := true })) :
    Work.Ends (Desk.update? id change) d Q fun _ => I := by
  refine (h.load hd id).andThen ?_
  rintro found d' ⟨hd', hcopy⟩
  cases found with
  | none => exact .pure (hnone d' hd')
  | some a => exact .bind (.modify (.pure (hsome a d' hd' (hcopy a rfl))))

theorem Desk.Browses.update? (h : Browses I) {id : ObjectId} {change : Anchor → Anchor}
    (hedit : ∀ {d a}, I d → d.draft.copy? id = some a →
      I (d.keep id { change a with dirty := true })) :
    Work.Keeps I (Desk.update? id change) := fun _ hd =>
  h.updates hd (fun _ hd' => hd') fun _ _ hd' ha => hedit hd' ha

theorem Desk.Browses.updateLinked (h : Browses I) {id : ObjectId} {change : Anchor → Anchor}
    (hedit : ∀ {d id a}, I d → d.draft.copy? id = some a →
      I (d.keep id { change a with dirty := true })) :
    Work.Keeps I (Actor.updateLinked id change) := by
  refine .bind (h.update? hedit) fun before => .bind (part _ _) fun a => ?_
  cases a.edge?.bind (·.twin) with
  | none => exact .pure _
  | some twin => exact .bind (h.update? hedit) fun _ => .bind (part _ _) fun _ => .pure _

theorem Desk.Browses.delete (h : Browses I) {id : ObjectId}
    (hbury : ∀ {d a}, I d → d.draft.copy? id = some a → I (d.bury id a)) :
    Work.Keeps I (Desk.delete id) := by
  refine fun d hd => (h.load hd id).andThen ?_
  rintro found d' ⟨hd', hcopy⟩
  cases found with
  | none => exact .pure hd'
  | some a => exact .modify (hbury hd' (hcopy a rfl))

end Changes

/-! ## Operations -/

namespace Strokes

variable {rules : Rulebook} {terms : Terms} {expendable : NodeId → Prop} {I : Nat → Desk σ → Prop}
  {n : Nat} {d : Desk σ} {actor : Actor} (h : Strokes rules terms expendable I)

include h

theorem mapNode {f : NodeRecord → NodeRecord} (m : NodeId)
    (hf : ∀ r, (f r).type = r.type ∧ (f r).fields = r.fields) :
    Work.Keeps (I n) (Desk.update? m (·.mapNode f)) :=
  (h.browses n).update? fun hd ha => h.adjust hd ha hf

theorem culls (n : Nat) : Desk.Culls (I n) expendable where
  browses := h.browses n
  seen hd ha hty := by
    rintro (rfl | hid)
    · exact h.seen hd ha hty
    · exact h.seen hd (hid ▸ (h.keyed hd).own ha ▸ ha) hty
  detach e m := h.mapNode m fun _ => ⟨rfl, rfl⟩
  edge e := (h.browses n).delete fun hd ha => h.bury hd ha fun _ hm => ObjectId.noConfusion hm
  node m hm := (h.browses n).delete fun hd ha => h.bury hd ha
    fun _ hid => ObjectId.node.inj hid ▸ hm

theorem changeNode {f : NodeRecord → NodeRecord} (m : NodeId)
    (hf : ∀ r, (f r).type = r.type ∧ (f r).fields = r.fields) :
    Work.Keeps (I n) (Actor.changeNode m f) := by
  refine .bind (h.mapNode m hf) fun found => ?_
  split
  · exact .pure _
  · exact .throw _

theorem attachOut (e : EdgeId) (m : NodeId) :
    Work.Keeps (I n) (Actor.changeNode m (·.attachOut e)) :=
  h.changeNode m fun _ => ⟨rfl, rfl⟩

theorem attachIn (e : EdgeId) (m : NodeId) : Work.Keeps (I n) (Actor.changeNode m (·.attachIn e)) :=
  h.changeNode m fun _ => ⟨rfl, rfl⟩

theorem link {type : TypeId} {fields : Fields} (source target : NodeId) (directed : Bool)
    (hmakes : terms.MakesEdge rules type fields) (hd : I (n + 2) d) :
    Work.Ends (actor.link source target type fields directed) d (fun _ => I n) fun _ => I n := by
  refine .bind (.bind (.get (.bind (.modify (.pure ?_)))))
  cases directed with
  | true =>
    refine .bind (.modify ?_)
    exact Work.Keeps.bind (h.attachOut _ source) (fun _ => .bind (h.attachIn _ target)
      fun _ => .pure _) _ (h.edge actor.requester source target hmakes (h.fewer (k := 1) hd))
  | false =>
    refine .bind (.bind (.get (.bind (.modify (.pure (.bind (.modify (.bind (.modify ?_)))))))))
    exact Work.Keeps.bind (h.attachOut _ source) (fun _ => .bind (h.attachIn _ target) fun _ =>
      .bind (h.attachOut _ target) fun _ => .bind (h.attachIn _ source) fun _ => .pure _) _
      (h.pair actor.requester source target hmakes hd)

variable (ha : actor.rulebook = rules)

include ha

/-- What is done with filled fields may rely on how they came about. -/
theorem fillFields {β : Type} {type : TypeId} {given : Fields} {next : Fields → Work σ β}
    {Q : β → Desk σ → Prop} {E : Error → Desk σ → Prop} (herror : ∀ e, E e d)
    (hnext : ∀ fields, (∀ requester, (⟨rules, requester⟩ : Actor).filledFields type given =
      .ok fields) → Work.Ends (next fields) d Q E) :
    Work.Ends (actor.fillFields type given >>= next) d Q E := by
  refine .bind ?_
  unfold Actor.fillFields
  cases hfilled : actor.filledFields type given with
  | error e => exact .throw (herror e)
  | ok fields =>
    refine .pure (hnext fields fun requester => ?_)
    have hsame : ∀ (filled : Fields) (entries : List (String × Value)),
        (⟨rules, requester⟩ : Actor).overlayFields type filled entries =
          actor.overlayFields type filled entries := by
      subst ha
      intro filled entries
      induction entries generalizing filled with
      | nil => rfl
      | cons head rest ih =>
        rw [Actor.overlayFields, Actor.overlayFields]
        simp only [ih]
        rfl
    rw [Actor.filledFields, hsame, ← hfilled, Actor.filledFields, Actor.declared,
      Actor.declared, ha]

omit [Durable σ] h in
/-- A type is resolved by its name. -/
theorem resolve {β : Type} {kind : Kind} {name : String} {next : TypeId → Work σ β}
    {Q : β → Desk σ → Prop} {E : Error → Desk σ → Prop} (herror : ∀ e, E e d)
    (hnext : ∀ type, rules.types.resolveKind kind name = some type → Work.Ends (next type) d Q E) :
    Work.Ends (actor.resolve kind name >>= next) d Q E := by
  refine .bind ?_
  unfold Actor.resolve
  rw [ha]
  cases hr : rules.types.resolveKind kind name with
  | none => exact .throw (herror _)
  | some type => exact .pure (hnext type hr)

theorem create {type : String} {fields : Fields} (hgives : terms.node type fields)
    (hd : I (n + 1) d) :
    Work.Ends (actor.create type fields) d (fun _ => I n) fun _ => I n := by
  have hless := h.fewer (k := 1) hd
  refine resolve ha (fun _ => hless) fun typeId htype => ?_
  simp only
  split
  · exact .bind (.throw hless)
  · rename_i hname
    refine h.fillFields ha (fun _ => hless) fun filled hfilled => ?_
    refine .bind (.bind (.get (.bind (.modify (.pure (.bind (.modify (.pure ?_))))))))
    exact h.node actor.requester ⟨type, fields, htype, hname, hgives, hfilled, rfl⟩ hd

theorem createLinked (source : NodeId) {type : String} {fields : Fields} {edgeType : String}
    (hgives : terms.node type fields ∧ terms.edge edgeType Fields.empty) (hd : I (n + 3) d) :
    Work.Ends (actor.createLinked source type fields edgeType) d (fun _ => I n) fun _ => I n := by
  have hless := h.fewer (k := 3) hd
  refine resolve ha (fun _ => hless) fun typeId htype => ?_
  refine h.fillFields ha (fun _ => hless) fun filled hfilled => ?_
  refine .bind (((h.browses (n + 3)).check actor _ _ d hd).mono (fun _ d₁ h₁ => ?_)
    fun _ _ h₁ => h.fewer (k := 3) h₁)
  refine .bind ((h.create ha hgives.1 (n := n + 2) h₁).mono (fun node d₂ h₂ => ?_)
    fun _ _ h₂ => h.fewer (k := 2) h₂)
  exact (h.link source node true ⟨edgeType, _, htype, hgives.2, hfilled⟩ h₂).andThen
    fun _ _ h₃ => .pure h₃

theorem connect (source target : NodeId) {edgeType : String} {fields : Fields} (directed : Bool)
    (hgives : terms.edge edgeType fields) (hd : I (n + 2) d) :
    Work.Ends (actor.connect source target edgeType fields directed) d (fun _ => I n)
      fun _ => I n := by
  have hless := h.fewer (k := 2) hd
  refine resolve ha (fun _ => hless) fun typeId htype => ?_
  refine h.fillFields ha (fun _ => hless) fun filled hfilled => ?_
  refine .bind (((h.browses (n + 2)).check actor _ _ d hd).mono (fun _ d₁ h₁ => ?_)
    fun _ _ h₁ => h.fewer (k := 2) h₁)
  refine .bind (((h.browses (n + 2)).check actor _ _ d₁ h₁).mono (fun _ d₂ h₂ => ?_)
    fun _ _ h₂ => h.fewer (k := 2) h₂)
  exact h.link source target directed ⟨edgeType, fields, htype, hgives, hfilled⟩ h₂

theorem connectMany (source : NodeId) (targets : List NodeId) {edgeType : String} {fields : Fields}
    (directed : Bool) (hgives : terms.edge edgeType fields) (hd : I (n + 2 * targets.length) d) :
    Work.Ends (actor.connectMany source targets edgeType fields directed) d (fun _ => I n)
      fun _ => I n := by
  have hless := h.fewer hd
  refine resolve ha (fun _ => hless) fun typeId htype => ?_
  refine h.fillFields ha (fun _ => hless) fun filled hfilled => ?_
  have hbrowses := h.browses (n + 2 * targets.length)
  refine .bind ((hbrowses.check actor _ _ d hd).mono (fun _ d₁ h₁ => ?_) fun _ _ h₁ => h.fewer h₁)
  refine .bind (((Work.Keeps.forM (l := targets) fun (target : NodeId) =>
    .bind (hbrowses.check actor target .connect) fun _ => .pure _) d₁ h₁).mono (fun _ d₂ h₂ => ?_)
      fun _ _ h₂ => h.fewer h₂)
  refine Work.Ends.mapM (J := fun rest d' => I (n + 2 * rest.length) d') h₂ ?_
  intro target rest d₃ h₃
  rw [List.length_cons, Nat.mul_succ, ← Nat.add_assoc] at h₃
  exact (h.link source target directed ⟨edgeType, fields, htype, hgives, hfilled⟩ h₃).mono
    (fun _ _ h₄ => h₄) fun _ _ h₄ => h.fewer h₄

/-- The object that was checked is the one that is changed, and has the twin
that is changed too. -/
theorem setLinked {id : ObjectId} {a : Anchor} {field : String} {value : Value} (hd : I n d)
    (hcopy : d.draft.copy? id = some a)
    (hfault : actor.fieldFault? a.type (actor.declared a.type) field value = none)
    (hgives : terms.value value) :
    Work.Ends (Actor.updateLinked id fun a => a.withFields (a.fields.set field value)) d
      (fun _ => I n) fun _ => I n := by
  have hbrowses : ∀ b, Desk.Browses fun d => I n d ∧ d.draft.copy? id = some b := fun b =>
    (h.browses n).and (.copied id b)
  let changed : Anchor := { a.withFields (a.fields.set field value) with dirty := true }
  have htype : changed.type = a.type := a.withFields_type _
  have htwin : changed.edge?.bind (·.twin) = a.edge?.bind (·.twin) := a.withFields_twin _
  have hfirst : Work.Ends (Desk.update? id fun a => a.withFields (a.fields.set field value)) d
      (fun before d' => I n d' ∧ ∀ b, before = some b → b = a ∧ d'.draft.copy? id = some changed)
      fun _ d' => I n d' ∧ d'.draft.copy? id = some a := by
    refine (hbrowses a).updates ⟨hd, hcopy⟩ (fun _ hd' => ⟨hd'.1, fun _ hb => by cases hb⟩) ?_
    rintro b d' ⟨hd', hcopy'⟩ hb
    obtain rfl : a = b := Option.some.inj (hcopy'.symm.trans hb)
    refine ⟨h.field ha hd' hb hfault hgives (.inl rfl) hb, fun c hc => ?_⟩
    exact ⟨(Option.some.inj hc).symm, by rw [Desk.keep_copy?, if_pos rfl]⟩
  refine .bind (hfirst.mono ?_ fun _ _ hd' => hd'.1)
  rintro before d₁ ⟨h₁, hbefore⟩
  cases before with
  | none => exact .bind (.throw h₁)
  | some b =>
    obtain ⟨rfl, hchanged⟩ := hbefore b rfl
    refine .bind (.pure ?_)
    split
    · exact .pure h₁
    · rename_i twin hedge
      have hsecond :
          Work.Ends (Desk.update? (.edge twin) fun a => a.withFields (a.fields.set field value))
          d₁ (fun _ => I n) fun _ d' => I n d' ∧ d'.draft.copy? id = some changed :=
        (hbrowses changed).updates ⟨h₁, hchanged⟩ (fun _ hd' => hd'.1) fun c d' hd' hc =>
          h.field ha hd'.1 hd'.2 (htype ▸ hfault) hgives (.inr ⟨twin, htwin.trans hedge, rfl⟩) hc
      refine .bind (hsecond.mono (fun found d₂ h₂ => ?_) fun _ _ h₂ => h₂.1)
      exact ((Desk.Browses.part _ found : Work.Keeps (I n) _) d₂ h₂).andThen fun _ _ h₃ => .pure h₃

theorem setField (id : ObjectId) (field : String) {value : Value} (hgives : terms.value value)
    (hd : I n d) :
    Work.Ends (actor.setField id field value) d (fun _ => I n) fun _ => I n := by
  refine .bind (((h.browses n).load hd id).andThen ?_)
  rintro found d₁ ⟨h₁, hcopy⟩
  cases found with
  | none => exact .throw h₁
  | some a =>
    simp only
    split
    · refine .pure ?_
      split
      · exact .throw h₁
      · rename_i hfault
        exact (h.setLinked ha h₁ (hcopy a rfl) hfault hgives).andThen fun _ _ h₂ => .pure h₂
    · exact .throw h₁

omit ha in
theorem changeAccess (id : ObjectId) (change : Access → Access) :
    Work.Keeps (I n) (actor.changeAccess id change) :=
  .bind ((h.browses n).check actor _ _) fun _ =>
    .bind ((h.browses n).updateLinked fun {_ _ a} hd ha => h.access (a := a) _ hd ha)
      fun _ => .pure _

/-- Every operation that is given acceptable things. -/
theorem run {op : Op} (hop : op.Meets terms) (hd : I (n + op.mints) d) :
    Work.Ends (op.run actor) d (fun _ => I n) fun _ => I n := by
  cases op with
  | create type fields => exact h.create ha hop hd
  | createLinked source type fields edgeType => exact h.createLinked ha source hop hd
  | connect source target edgeType fields directed =>
    exact h.connect ha source target directed hop hd
  | connectMany source targets edgeType fields directed =>
    exact h.connectMany ha source targets directed hop hd
  | disconnect e => exact (h.culls n).disconnect actor e d hd
  | destroy m => exact (h.culls n).destroy actor m d hd
  | destroyIsolated m => exact (h.culls n).destroyIsolated actor m d hd
  | setField id field value => exact h.setField ha id field hop hd
  | grant id level => exact Work.Keeps.bind (h.changeAccess id _) (fun _ => .pure _) d hd
  | revoke id => exact Work.Keeps.bind (h.changeAccess id _) (fun _ => .pure _) d hd
  | allow id root level => exact Work.Keeps.bind (h.changeAccess id _) (fun _ => .pure _) d hd
  | disallow id root => exact Work.Keeps.bind (h.changeAccess id _) (fun _ => .pure _) d hd
  | _ => exact (h.browses n).run rfl actor d hd

omit ha in
theorem evictUnreachable (root : RootId) : Work.Keeps (I n) (Desk.evictUnreachable root) :=
  (h.culls n).evictUnreachable root

end Strokes

/-! ## Holdings -/

/-- Any object may go from a desk of good anchors, and what is made or changed
there has to be good. -/
theorem Holdings.strokes {rules : Rulebook} {terms : Terms} {held : Holdings σ}
    (hnode : ∀ {record} (id : NodeId) (owner : RootId), terms.MakesNode rules record →
      held.good id (.ofNode id owner record))
    (hedge : ∀ {type fields} (id : EdgeId) (owner : RootId) (source target : NodeId)
      (twin : Option EdgeId), terms.MakesEdge rules type fields →
        held.good id (.ofEdge id owner (.between type fields source target twin)))
    (hadjust : ∀ {id a} {f : NodeRecord → NodeRecord},
      (∀ r, (f r).type = r.type ∧ (f r).fields = r.fields) → held.good id a →
        held.good id (a.mapNode f))
    (haccess : ∀ {id a} (access : Access), held.good id a →
      held.good id { a with access := access })
    (hfield : ∀ {id a value} (field : String), terms.value value → held.good id a →
      held.good id (a.withFields (a.fields.set field value))) :
    Strokes rules terms (fun _ => True) fun _ => held.Desks where
  browses _ := held.browses
  fewer h := h
  keyed h := h.draft.keyed
  node owner hmakes h := h.minted.staged (hnode _ owner hmakes)
  edge owner source target hmakes h := h.minted.staged (hedge _ owner source target none hmakes)
  pair owner source target hmakes h :=
    (h.minted.minted.staged (hedge _ owner target source _ hmakes)).staged
      (hedge _ owner source target _ hmakes)
  adjust h ha hf := h.change ha (held.marked _ _ (hadjust hf (h.draft.copies ha)))
  access access h ha := h.change ha (held.marked _ _ (haccess access (h.draft.copies ha)))
  field _ h _ _ hvalue _ hb := h.change hb (held.marked _ _ (hfield _ hvalue (h.draft.copies hb)))
  bury h _ _ := h.bury _ _
  seen _ _ _ := trivial

end Wayfarer
