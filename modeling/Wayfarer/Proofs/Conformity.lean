import Wayfarer.Proofs.Assembly
import Wayfarer.Proofs.Schema
import Wayfarer.Proofs.Strokes
import Wayfarer.Proofs.Tenancy.Reachable

/-!
# Objects conform to the schema

Fields are checked when an object is made and when one of them is set. The other
half of a link is changed without being checked, so it matters that twins are of
one type. A `Typing` knows the types of all edges made so far, and of the twins
that they name. Anchors that agree with one (`Typing.Agrees`) do so whatever
operations do, while the typing grows with each new edge (`Typing.strokes`).
-/

namespace Wayfarer

/-- The kind of things that an identity stands for. -/
def ObjectId.kind : ObjectId → Kind
  | .node _ => .node
  | .edge _ => .edge

/-- The kind of an object by its content. -/
def Anchor.kind (a : Anchor) : Kind :=
  match a.body with
  | .node _ => .node
  | .edge _ => .edge

/-- An object as the rulebook says: its content is of the kind that its identity
stands for, its type is a declared one of that kind, and its fields are the
type's defaults, in the same order, with values that may stand there. -/
structure Anchor.Conforms (rules : Rulebook) (a : Anchor) : Prop where
  kind : a.id.kind = a.kind
  type : rules.types.kind? a.type = some a.kind
  fields : ∃ declared, rules.types.defaults a.type = some declared ∧ declared.NamedOnce ∧
    declared.Follows a.fields

namespace Anchor

variable {rules : Rulebook} {a b : Anchor}

theorem mapNode_kind (a : Anchor) (f : NodeRecord → NodeRecord) : (a.mapNode f).kind = a.kind := by
  cases hb : a.body <;> simp [mapNode, kind, hb]

theorem withFields_kind (a : Anchor) (f : Fields) : (a.withFields f).kind = a.kind := by
  cases hb : a.body <;> simp [withFields, kind, hb]

/-- The names of the fields are those of the defaults, once each. -/
theorem Conforms.names (h : a.Conforms rules) : ∃ declared,
    rules.types.defaults a.type = some declared ∧ a.fields.names = declared.names ∧
      a.fields.NamedOnce := by
  obtain ⟨declared, hdeclared, honce, hfollows⟩ := h.fields
  refine ⟨declared, hdeclared, hfollows.names, ?_⟩
  rw [Fields.NamedOnce, hfollows.names]
  exact honce

theorem Conforms.change (h : a.Conforms rules) (hid : b.id = a.id) (hkind : b.kind = a.kind)
    (htype : b.type = a.type)
    (hfields : ∀ {declared}, rules.types.defaults a.type = some declared →
      declared.Follows a.fields →
      declared.Follows b.fields) : b.Conforms rules := by
  obtain ⟨declared, hdeclared, honce, hfollows⟩ := h.fields
  refine ⟨by rw [hid, hkind, h.kind], by rw [htype, hkind, h.type], declared, ?_, honce, ?_⟩
  · rw [htype, hdeclared]
  · exact hfields hdeclared hfollows

end Anchor

/-- A desk at which whatever can be loaded conforms, and is what was asked
for. -/
def Desk.Conforms {σ : Type} [Durable σ] (rules : Rulebook) (d : Desk σ) : Prop :=
  ∀ {id a d'}, Desk.load id d = .ok (some a) d' → a.id = id ∧ a.Conforms rules

/-- Something noted at desks where everything conforms. -/
def Incident.Conforms {σ : Type} [Durable σ] (rules : Rulebook) : Incident σ → Prop
  | .performs d _ => d.Conforms rules
  | .commits before after => before.Conforms rules ∧ after.Conforms rules

/-- The fields that an operation is given for new objects. -/
def Op.given : Op → Fields
  | .create _ fields | .createLinked _ _ fields _ | .connect _ _ _ fields _
  | .connectMany _ _ _ fields _ => fields
  | _ => Fields.empty

/-- Something noted, with given fields named once each. -/
def Incident.NamesOnce {σ : Type} : Incident σ → Prop
  | .performs _ op => op.given.NamedOnce
  | .commits _ _ => True

instance {σ : Type} : DecidablePred (Incident.NamesOnce (σ := σ))
  | .performs _ op => inferInstanceAs (Decidable op.given.NamedOnce)
  | .commits _ _ => isTrue trivial

/-! ## Types of edges -/

/-- The types of edges, as far as they are known. -/
def Typing : Type := EdgeId → Option TypeId

namespace Typing

variable {rules : Rulebook} {τ τ' : Typing} {id : ObjectId} {a b : Anchor}

/-- The typing that knows no edges. -/
def blank : Typing := fun _ => none

/-- The typing with one more edge. -/
def add (τ : Typing) (e : EdgeId) (type : TypeId) : Typing :=
  fun x => if x = e then some type else τ x

/-- A typing that knows at least as much as another. -/
def Extends (τ τ' : Typing) : Prop := ∀ {e type}, τ e = some type → τ' e = some type

/-- An object that is an edge of known type. -/
def Knows (τ : Typing) (id : ObjectId) : Prop := ∃ e type, id = .edge e ∧ τ e = some type

theorem extends_add {e : EdgeId} {type : TypeId} (he : τ e = none) : τ.Extends (τ.add e type) := by
  intro x type' hx
  unfold add
  split
  · rename_i heq
    rw [heq, he] at hx
    cases hx
  · exact hx

theorem add_self {e : EdgeId} {type : TypeId} : τ.add e type e = some type := if_pos rfl

/-- An anchor that conforms, with a type known for it if it is an edge, and
known for its twin. -/
structure Agrees (rules : Rulebook) (τ : Typing) (id : ObjectId) (a : Anchor) : Prop where
  own : a.id = id
  conforms : a.Conforms rules
  edge : ∀ {e}, id = .edge e → τ e = some a.type
  twin : ∀ {e}, a.edge?.bind (·.twin) = some e → τ e = some a.type

namespace Agrees

theorem mono (h : Agrees rules τ id a) (hle : τ.Extends τ') : Agrees rules τ' id a :=
  ⟨h.own, h.conforms, fun he => hle (h.edge he), fun ht => hle (h.twin ht)⟩

theorem change (h : Agrees rules τ id a) (hid : b.id = a.id) (hkind : b.kind = a.kind)
    (htype : b.type = a.type) (htwin : b.edge?.bind (·.twin) = a.edge?.bind (·.twin))
    (hfields : ∀ {declared}, rules.types.defaults a.type = some declared →
      declared.Follows a.fields →
      declared.Follows b.fields) : Agrees rules τ id b := by
  refine ⟨hid.trans h.own, h.conforms.change hid hkind htype hfields, fun he => ?_, fun ht => ?_⟩
  · rw [htype]
    exact h.edge he
  · rw [htype]
    exact h.twin (htwin ▸ ht)

theorem same (h : Agrees rules τ id a) (hid : b.id = a.id) (hbody : b.body = a.body) :
    Agrees rules τ id b := by
  have hkind : b.kind = a.kind := by rw [Anchor.kind, Anchor.kind, hbody]
  have htype : b.type = a.type := by rw [Anchor.type, Anchor.type, hbody]
  have hedge : b.edge? = a.edge? := by rw [Anchor.edge?, Anchor.edge?, hbody]
  have hfields : b.fields = a.fields := by rw [Anchor.fields, Anchor.fields, hbody]
  exact h.change hid hkind htype (by rw [hedge]) fun _ hf => by rwa [hfields]

theorem mapNode (h : Agrees rules τ id a) {f : NodeRecord → NodeRecord}
    (hf : ∀ r, (f r).type = r.type ∧ (f r).fields = r.fields) :
    Agrees rules τ id (a.mapNode f) := by
  have hfields : (a.mapNode f).fields = a.fields := a.mapNode_fields fun r => (hf r).2
  refine h.change (a.mapNode_id f) (a.mapNode_kind f) (a.mapNode_type fun r => (hf r).1) ?_ ?_
  · rw [Anchor.mapNode_edge?]
  · intro _ _ hfollows
    rwa [hfields]

/-- A value that may stand in a field of the type is set. -/
theorem setField (h : Agrees rules τ id a) {declared : Fields} {field : String} {value old : Value}
    (hdeclared : rules.types.defaults a.type = some declared)
    (hold : declared.get? field = some old) (hvalue : old.Suits value) :
    Agrees rules τ id (a.withFields (a.fields.set field value)) := by
  refine h.change (a.withFields_id _) (a.withFields_kind _) (a.withFields_type _)
    (a.withFields_twin _) ?_
  intro declared' hdeclared' hfollows
  rw [hdeclared] at hdeclared'
  cases hdeclared'
  rw [Anchor.withFields_fields]
  exact hfollows.set hold hvalue

end Agrees

/-! ## Desks over a durable tier -/

section

variable {σ : Type} [Durable σ] {store : Store σ} {n k : Nat} {d d' : Desk σ}

/-- Anchors that agree with a typing, and durable tiers that hold only such. -/
def holdings (store : Store σ) (rules : Rulebook) (τ : Typing) : Holdings σ where
  good := Agrees rules τ
  own h := h.own
  marked _ _ h := h.same rfl rfl
  holds s := store.holds s ∧ ∀ {id a}, (store.content s).get? id = some a → Agrees rules τ id a
  fetched {_ _ id _} h hfetch := by
    obtain ⟨_, hfound, _⟩ := store.fetch h.1 id
    rw [hfound] at hfetch
    injection hfetch with hget
    exact h.2 hget
  kept {s} id h := by
    obtain ⟨s', hfound, hs', hsame⟩ := store.fetch h.1 id
    have hend : endOf (Durable.fetch id) s = s' := by rw [endOf, hfound]
    rw [hend]
    exact ⟨hs', fun ha => h.2 (hsame ▸ ha)⟩

theorem drafts_mono {d : Draft} (h : (holdings store rules τ).Drafts d) (hle : τ.Extends τ') :
    (holdings store rules τ').Drafts d := h.mono fun ha => Agrees.mono ha hle

theorem tiers_mono {s : Shared σ} (h : (holdings store rules τ).Tiers s) (hle : τ.Extends τ') :
    (holdings store rules τ').Tiers s :=
  ⟨⟨h.durable.1, fun ha => (h.durable.2 ha).mono hle⟩,
    fun he ha => Agrees.mono (h.cached he ha) hle⟩

/-- Tiers that agree with a typing; the next `n` new objects are no edges of
known type. -/
structure Tiers (store : Store σ) (rules : Rulebook) (τ : Typing) (n : Nat) (s : Shared σ) : Prop
    extends (holdings store rules τ).Tiers s where
  mint : s.mint.Ample n τ.Knows

/-- A desk that agrees with a typing. -/
structure Desks (store : Store σ) (rules : Rulebook) (τ : Typing) (n : Nat)
    (d : Desk σ) : Prop where
  draft : (holdings store rules τ).Drafts d.draft
  tiers : Tiers store rules τ n d.shared

/-- A desk that agrees with a typing which knows at least what `τ` does. -/
def Reached (store : Store σ) (rules : Rulebook) (τ : Typing) (n : Nat) (d : Desk σ) : Prop :=
  ∃ τ', τ.Extends τ' ∧ Desks store rules τ' n d

namespace Desks

theorem holdings (h : Desks store rules τ n d) : (holdings store rules τ).Desks d :=
  ⟨h.draft, h.tiers.toTiers⟩

theorem of_holdings (h : Desks store rules τ n d) (hdesk : (Typing.holdings store rules τ).Desks d')
    (hmint : d'.shared.mint = d.shared.mint) : Desks store rules τ n d' :=
  ⟨hdesk.draft, hdesk.tiers, hmint ▸ h.tiers.mint⟩

theorem fewer (h : Desks store rules τ (n + k) d) : Desks store rules τ n d :=
  ⟨h.draft, h.tiers.toTiers, h.tiers.mint.mono (Nat.le_add_right n k) fun _ hk => hk⟩

theorem reached (h : Desks store rules τ n d) : Reached store rules τ n d := ⟨τ, id, h⟩

theorem change (h : Desks store rules τ n d) (ha : d.draft.copy? id = some a)
    (hb : Agrees rules τ id b) :
    Desks store rules τ n (d.keep id b) := h.of_holdings (h.holdings.change ha hb) rfl

/-- An identity is used up for something that is not an edge. -/
theorem minted (h : Desks store rules τ (n + 1) d) : Desks store rules τ n d.minted :=
  ⟨h.draft, h.holdings.minted.tiers, h.tiers.mint.advance.mono (Nat.le_refl n) fun _ => .inl⟩

/-- An identity is used up for an edge, whose type becomes known. -/
theorem mintedEdge (h : Desks store rules τ (n + 1) d) (type : TypeId) :
    τ.Extends (τ.add d.shared.mint.nextEdge type) ∧
      Desks store rules (τ.add d.shared.mint.nextEdge type) n d.minted := by
  -- The mint has not handed the identity out before, so the typing says nothing of it
  -- yet.
  have hnew : τ d.shared.mint.nextEdge = none := by
    rw [Option.eq_none_iff_forall_not_mem]
    intro type' hknown
    exact h.tiers.mint.fresh (Nat.succ_pos n) Mint.names_nextEdge ⟨_, type', rfl, hknown⟩
  have hle : τ.Extends (τ.add d.shared.mint.nextEdge type) := extends_add hnew
  refine ⟨hle, drafts_mono h.draft hle, tiers_mono h.holdings.minted.tiers hle,
    h.tiers.mint.advance.mono (Nat.le_refl n) ?_⟩
  rintro id ⟨e, type', rfl, hknown⟩
  unfold add at hknown
  split at hknown
  · rename_i he
    exact .inr (he ▸ Mint.names_nextEdge)
  · exact .inl ⟨e, type', rfl, hknown⟩

theorem staged (h : Desks store rules τ n d) (ha : Agrees rules τ a.id a) :
    Desks store rules τ n (d.staged a) :=
  h.of_holdings (h.holdings.staged ha) rfl

theorem bury (h : Desks store rules τ n d) (id : ObjectId) (a : Anchor) :
    Desks store rules τ n (d.bury id a) :=
  h.of_holdings (h.holdings.bury id a) rfl

end Desks

theorem desks_browse (store : Store σ) (rules : Rulebook) (τ : Typing) (n : Nat) :
    Desk.Browses (Desks store rules τ n) := by
  intro id d h
  have hboth :=
    ((holdings store rules τ).browses.and (.still fun _ mint => mint.Ample n τ.Knows)) id d
    ⟨h.holdings, h.tiers.mint⟩
  exact hboth.mono (fun _ _ h => ⟨h.1.draft, h.1.tiers, h.2⟩)
    fun _ _ h => ⟨h.1.draft, h.1.tiers, h.2⟩

/-! ## Operations -/

/-- Given fields have to be named once each. -/
def terms : Terms := ⟨fun _ given => given.NamedOnce, fun _ given => given.NamedOnce, fun _ => True⟩

/-- Fields that were filled in for a declared type follow its defaults. -/
theorem conforms_of_filled (hrules : rules.Regular) {type : TypeId} {given fields : Fields}
    {kind : Kind} {name : String} (htype : rules.types.resolveKind kind name = some type)
    (honce : given.NamedOnce)
    (hfilled : ∀ requester, (⟨rules, requester⟩ : Actor).filledFields type given = .ok fields) :
    rules.types.kind? type = some kind ∧ ∃ declared, rules.types.defaults type = some declared ∧
      declared.NamedOnce ∧ declared.Follows fields := by
  obtain ⟨-, x, hx, hkind⟩ := Taxonomy.resolveKind_eq_some htype
  have hdeclaredKind : rules.types.kind? type = some kind := by
    rw [Taxonomy.kind?, hx, ← hkind]; rfl
  obtain ⟨declared, hdeclared, hnamed⟩ := hrules.declares hdeclaredKind
  refine ⟨hdeclaredKind, declared, hdeclared, hnamed, ?_⟩
  have hfollows := Actor.follows_filledFields honce (hfilled default)
  rwa [Actor.declared, hdeclared] at hfollows

theorem agrees_ofNode (hrules : rules.Regular) (m : NodeId) (owner : RootId) {record : NodeRecord}
    (hmakes : terms.MakesNode rules record) :
    Agrees rules τ (.node m) (.ofNode m owner record) := by
  obtain ⟨name, given, htype, -, honce, hfilled, -⟩ := hmakes
  obtain ⟨hkind, hfields⟩ := conforms_of_filled hrules htype honce hfilled
  exact ⟨rfl, ⟨rfl, hkind, hfields⟩, fun he => ObjectId.noConfusion he, fun ht => by cases ht⟩

theorem agrees_ofEdge (hrules : rules.Regular) {e : EdgeId} (owner : RootId) {type : TypeId}
    {fields : Fields} (source target : NodeId) {twin : Option EdgeId}
    (hmakes : terms.MakesEdge rules type fields) (he : τ e = some type)
    (htwin : ∀ e', twin = some e' → τ e' = some type) :
    Agrees rules τ (.edge e) (.ofEdge e owner (.between type fields source target twin)) := by
  obtain ⟨name, given, htype, honce, hfilled⟩ := hmakes
  obtain ⟨hkind, hfields⟩ := conforms_of_filled hrules htype honce hfilled
  refine ⟨rfl, ⟨rfl, hkind, hfields⟩, fun hid => ?_, fun ht => htwin _ ht⟩
  rw [← ObjectId.edge.inj hid]
  exact he

/-- An object is a node or an edge of known type before and after everything
that operations do, and with every new edge the typing grows. -/
theorem strokes (store : Store σ) (hrules : rules.Regular) (τ : Typing) :
    Strokes rules terms (fun _ => True) (Reached store rules τ) where
  browses n := by
    rintro id d ⟨τ', hle, h⟩
    exact (desks_browse store rules τ' n id d h).mono (fun _ _ h => ⟨τ', hle, h⟩)
      fun _ _ h => ⟨τ', hle, h⟩
  fewer := fun ⟨τ', hle, h⟩ => ⟨τ', hle, h.fewer⟩
  keyed := fun ⟨_, _, h⟩ => h.draft.keyed
  node owner hmakes := fun ⟨τ', hle, h⟩ =>
    ⟨τ', hle, h.minted.staged (agrees_ofNode hrules _ owner hmakes)⟩
  edge {_ _ type _} owner source target hmakes := by
    rintro ⟨τ', hle, h⟩
    obtain ⟨hle', h'⟩ := h.mintedEdge type
    refine ⟨_, fun hx => hle' (hle hx), h'.staged ?_⟩
    exact agrees_ofEdge hrules owner source target hmakes add_self fun _ ht => by cases ht
  pair {_ d type _} owner source target hmakes := by
    rintro ⟨τ', hle, h⟩
    -- Both halves become known before either is put down, as each names the other.
    obtain ⟨hle₁, h₁⟩ := h.mintedEdge type
    obtain ⟨hle₂, h₂⟩ := h₁.mintedEdge type
    have hknown : τ'.add d.shared.mint.nextEdge type d.shared.mint.nextEdge = some type := add_self
    have hfirst := hle₂ hknown
    refine ⟨_, fun hx => hle₂ (hle₁ (hle hx)), (h₂.staged ?_).staged ?_⟩
    · exact agrees_ofEdge hrules owner target source hmakes add_self fun _ ht =>
        Option.some.inj ht ▸ hfirst
    · exact agrees_ofEdge hrules owner source target hmakes hfirst fun _ ht =>
        Option.some.inj ht ▸ add_self
  adjust := fun ⟨τ', hle, h⟩ ha hf =>
    ⟨τ', hle, h.change ha (((h.draft.copies ha).mapNode hf).same rfl rfl)⟩
  access _ := fun ⟨τ', hle, h⟩ ha => ⟨τ', hle, h.change ha ((h.draft.copies ha).same rfl rfl)⟩
  field {_ d id a id' b field value actor} hactor := by
    rintro ⟨τ', hle, h⟩ ha hfault - hid hb
    have hagrees : Agrees rules τ' id a := h.draft.copies ha
    have hagrees' : Agrees rules τ' id' b := h.draft.copies hb
    -- The other half of a link has the type that the field was checked for.
    have htype : b.type = a.type := by
      rcases hid with rfl | ⟨twin, htwin, rfl⟩
      · rw [Option.some.inj (ha.symm.trans hb)]
      · exact Option.some.inj ((hagrees'.edge rfl).symm.trans (hagrees.twin htwin))
    obtain ⟨declared, hdeclared, -, -⟩ := hagrees'.conforms.fields
    obtain ⟨old, hold, hvalue⟩ := Actor.suits_of_fieldFault? hfault
    rw [Actor.declared, hactor, ← htype, hdeclared] at hold
    exact ⟨τ', hle, h.change hb ((hagrees'.setField hdeclared hold hvalue).same rfl rfl)⟩
  bury := fun ⟨τ', hle, h⟩ _ _ => ⟨τ', hle, h.bury _ _⟩
  seen _ _ _ := trivial

/-! ## Commits and new roots -/

/-- A commit that was accepted leaves the old contents and what was written on
top of them. -/
theorem commit (h : Desks store rules τ n d) :
    Work.Ends Desk.commit d (fun _ => Desks store rules τ n) fun _ => Desks store rules τ n := by
  refine Desk.commit_cases (fun _ => h) (fun s' happly => ?_) fun e s' happly => ?_
  · obtain ⟨⟨hs', hcontent⟩, -⟩ := store.applied h.tiers.durable.1 happly
    have hstored : (holdings store rules τ).holds s' := by
      refine ⟨hs', fun {id a} ha => ?_⟩
      rw [hcontent] at ha
      rcases h.draft.keyed.of_overlay ha with ⟨b, hb, _, rfl⟩ | ⟨_, hold⟩
      · exact (holdings store rules τ).marked _ _ (h.draft.copies hb)
      · exact h.tiers.durable.2 hold
    have htiers : (holdings store rules τ).Tiers { d.shared with durable := s' } :=
      ⟨hstored, h.tiers.cached⟩
    refine ⟨h.draft.settle, htiers.settle h.draft.writes, ?_⟩
    rw [Shared.settle_mint]
    exact h.tiers.mint
  · obtain ⟨hs', hsame⟩ := store.refused h.tiers.durable.1 happly
    have hstored : (holdings store rules τ).holds s' :=
      ⟨hs', fun ha => h.tiers.durable.2 (hsame ▸ ha)⟩
    exact ⟨h.draft, ⟨hstored, h.tiers.cached⟩, h.tiers.mint⟩

theorem Reached.commit (h : Reached store rules τ n d) :
    Work.Ends Desk.commit d (fun _ => Reached store rules τ n)
      fun _ => Reached store rules τ n := by
  obtain ⟨τ', hle, h⟩ := h
  exact (Typing.commit h).mono (fun _ _ h' => ⟨τ', hle, h'⟩) fun _ _ h' => ⟨τ', hle, h'⟩

theorem conclude (hrules : rules.Regular) (root : RootId) :
    Work.Keeps (Reached store rules τ n) (Desk.conclude root) :=
  .bind ((strokes store hrules τ).evictUnreachable root) fun _ _ h => h.commit

/-- A root conforms, as its type is declared without fields. -/
theorem agrees_root (hrules : rules.Regular) (root : RootId) :
    Agrees rules τ root (.ofNode root.node root (.isolated rootType Fields.empty)) := by
  have hfields : Fields.empty.Follows Fields.empty := .refl _
  refine ⟨rfl, ⟨rfl, hrules.root, Fields.empty, hrules.bare, Fields.namedOnce_empty, hfields⟩,
    fun he => ?_,
    fun ht => by cases ht⟩
  exact ObjectId.noConfusion he

theorem insertRoot (hrules : rules.Regular) (root : RootId) :
    Work.Keeps (Desks store rules τ n) (Actor.insertRoot root) := by
  refine .bind (desks_browse store rules τ n _) fun found => ?_
  cases found with
  | none => exact .bind (fun d h => .modify (h.staged (agrees_root hrules root))) fun _ => .pure _
  | some a => exact .pure _

theorem Reached.conforms (h : Reached store rules τ n d) : d.Conforms rules := by
  obtain ⟨τ', -, h⟩ := h
  intro id a d' hload
  obtain ⟨h', hcopy⟩ := ((desks_browse store rules τ' n).load h id).ok hload
  have hagrees : Agrees rules τ' id a := h'.draft.copies (hcopy a rfl)
  exact ⟨hagrees.own, hagrees.conforms⟩

/-- An attempt to commit, by itself or at the end of a request. -/
theorem Reached.attempt (h : Reached store rules τ n d) {w : Work σ Receipt}
    (hw : Work.Ends w d (fun _ => Reached store rules τ n) fun _ => Reached store rules τ n) :
    Reached store rules τ n (endOf w d) ∧ ∀ x ∈ Desk.attempt w d, x.Conforms rules := by
  refine ⟨hw.endOf, fun x hx => ?_⟩
  unfold Desk.attempt at hx
  split at hx
  · rename_i hrun
    rw [List.mem_singleton.1 hx]
    exact ⟨h.conforms, (hw.ok hrun).conforms⟩
  · cases hx

theorem Reached.found (hrules : rules.Regular) (h : Reached store rules τ n d) (root : RootId) :
    Reached store rules τ n (endOf (Realm.foundRoot root) d) ∧
      ∀ x ∈ Realm.founding root d, x.Conforms rules := by
  obtain ⟨τ', hle, h⟩ := h
  have hinsert := insertRoot hrules root d h
  unfold Realm.founding Realm.foundRoot
  cases hw : Actor.insertRoot root d with
  | error e d' =>
    rw [endOf_bind_of_error hw]
    exact ⟨⟨τ', hle, hinsert.error hw⟩, fun _ hx => by cases hx⟩
  | ok made d' =>
    have h' : Reached store rules τ n d' := ⟨τ', hle, hinsert.ok hw⟩
    rw [endOf_bind_of_ok hw]
    cases made with
    | false => exact ⟨h', fun _ hx => by cases hx⟩
    | true =>
      obtain ⟨hend, hvouch⟩ := h'.attempt h'.commit
      refine ⟨?_, hvouch⟩
      rw [if_pos rfl, endOf_bind_pure]
      exact hend

/-! ## One move after another -/

/-- Agreeing with a typing as a custom. More edges become known in its
course. -/
def custom (store : Store σ) (rules : Rulebook) : Custom σ where
  Known := Typing
  le := Extends
  refl _ _ _ h := h
  trans h h' := fun hx => h' (h hx)
  drafts τ := (holdings store rules τ).Drafts
  tiers := Tiers store rules
  mono hle h := drafts_mono h hle
  blank _ := .of_empty rfl

theorem desks_iff : (custom store rules).Desks τ n d ↔ Reached store rules τ n d :=
  ⟨fun ⟨τ', hle, hdraft, htiers⟩ => ⟨τ', hle, hdraft, htiers⟩,
    fun ⟨τ', hle, h⟩ => ⟨τ', hle, h.draft, h.tiers⟩⟩

theorem meets_of_namedOnce {op : Op} (h : op.given.NamedOnce) : op.Meets terms := by
  cases op with
  | createLinked => exact ⟨h, Fields.namedOnce_empty⟩
  | create | connect | connectMany => exact h
  | _ => exact trivial

theorem desks (store : Store σ) (hrules : rules.Regular) (τ : Typing) :
    Desk.Custom rules Incident.NamesOnce (Incident.Conforms rules)
      ((custom store rules).Desks τ) := by
  have hsame : (custom store rules).Desks τ = Reached store rules τ :=
    funext fun n => funext fun d => propext desks_iff
  rw [hsame]
  refine ⟨(strokes store hrules τ).browses, ?_, ?_, ?_, ?_, ?_⟩
  · rintro n d now cancelled notes ⟨τ', hle, h⟩ -
    exact ⟨τ', hle, h.draft, ⟨h.tiers.durable, h.tiers.cached⟩, h.tiers.mint⟩
  · rintro n d ⟨τ', hle, h⟩
    exact ⟨τ', hle, .of_empty rfl, h.tiers⟩
  · rintro n d ⟨τ', hle, h⟩
    exact ⟨τ', hle, h.draft.evict, h.tiers⟩
  · intro n d actor op ha h hop
    exact ⟨(strokes store hrules τ).run ha (meets_of_namedOnce hop) h, h.conforms⟩
  · exact fun root h _ => h.attempt (conclude hrules root _ h)

theorem founds (store : Store σ) (hrules : rules.Regular) :
    (custom store rules).Founds Incident.NamesOnce (Incident.Conforms rules) := by
  intro τ n d root h _
  obtain ⟨hend, hnoted⟩ := (desks_iff.1 h).found hrules root
  exact ⟨desks_iff.2 hend, hnoted⟩

/-- A realm that has just started over an empty durable tier knows no edges. -/
theorem begin {config : RealmConfig} {s s' : σ} {realm : Realm σ}
    (hstart : Realm.start rules config s = .ok realm s') (hs : store.holds s)
    (hempty : ∀ id, (store.content s).get? id = none)
    (hmint : realm.shared.mint.Ample n fun _ => False) :
    (custom store rules).Assemblies rules blank n (Assembly.begin realm) := by
  unfold Realm.start at hstart
  split at hstart
  · cases hstart
  rename_i epoch there hepoch
  obtain ⟨hgood, hsame⟩ := store.begun hs hepoch
  cases hstart
  have hstored : (holdings store rules blank).holds s' := by
    refine ⟨hgood, fun {id a} ha => ?_⟩
    rw [hsame, hempty id] at ha
    cases ha
  refine ⟨rfl, ⟨⟨hstored, fun he => by (cases he)⟩, hmint.mono (Nat.le_refl n) ?_⟩,
    fun hs => by (cases hs)⟩
  rintro id ⟨e, type, -, hknown⟩
  cases hknown

end

end Typing

/-- An assembly in which everything conforms that is stored, and everything that
can be loaded in any session. -/
structure Assembly.Conforms {σ : Type} [Durable σ] (store : Store σ) (rules : Rulebook)
    (w : Assembly σ) : Prop where
  holds : store.holds w.realm.shared.durable
  stored : ∀ {id a}, (store.content w.realm.shared.durable).get? id = some a →
    a.id = id ∧ a.Conforms rules
  sessions : ∀ {name s}, w.sessions.get? name = some s → (w.desk s).Conforms rules

/-- Whatever sessions and walks do in a realm that started over an empty durable
tier, everything that is stored or seen in a session conforms to the schema, and
so did everything that could be seen in between, at each operation of an ability
and at each commit. Given fields are named once each, as they are when they were
set one after another (`Fields.namedOnce_ofEntries`). -/
theorem objects_conform {σ : Type} [Durable σ] (store : Store σ) {types : List TypeDecl}
    {abilities : List AbilityDecl} {rules : Rulebook}
    (hrules : Rulebook.build (Schema.base.extend types abilities) = .ok rules)
    (hroot : ∀ decl ∈ types, TypeId.ofName decl.name = rootType → decl.name = rootTypeName)
    {config : RealmConfig} {realm : Realm σ} {s s' : σ} (hs : store.holds s)
    (hempty : ∀ id, (store.content s).get? id = none)
    (hstart : Realm.start rules config s = .ok realm s') (moves : List Move)
    (hmint : realm.shared.mint.Ample (Incident.totalMints ((Assembly.begin realm).journal moves))
      fun _ => False)
    (hgiven : ∀ x ∈ (Assembly.begin realm).journal moves, x.NamesOnce) :
    ((Assembly.begin realm).play moves).Conforms store rules ∧
      ∀ x ∈ (Assembly.begin realm).journal moves, x.Conforms rules := by
  have hregular := Rulebook.regular_of_build hrules hroot
  -- Nothing has to be left of the mint when all moves were made.
  rw [← Nat.zero_add (Incident.totalMints _)] at hmint
  obtain ⟨⟨τ, -, hend⟩, hnoted⟩ := Custom.journal (Typing.desks store hregular) moves
    (Typing.founds store hregular) (Typing.begin hstart hs hempty hmint) hgiven
  refine ⟨⟨hend.tiers.durable.1, fun ha => ?_, fun {_ session} hopen => ?_⟩, hnoted⟩
  · have hagrees := hend.tiers.durable.2 ha
    exact ⟨hagrees.own, hagrees.conforms⟩
  · have hdesk : Typing.Desks store rules τ 0 (((Assembly.begin realm).play moves).desk session) :=
      ⟨hend.drafts hopen, hend.tiers⟩
    intro _ _ _ hload
    exact hdesk.reached.conforms hload

/-! ## A road with a toll -/

namespace Travel

/-- Places with names, and roads with tolls between them. -/
def mapped : List TypeDecl :=
  [⟨"place", .node, none, .ofEntries [("name", .str "nowhere")]⟩,
    ⟨"road", .edge, none, .ofEntries [("toll", .int 0)]⟩]

/-- The schema of places and roads. -/
def tolls : Rulebook := (Rulebook.build (Schema.base.extend mapped [])).toOption.getD default

/-- A realm that has just started over an empty vault. -/
def tolled : Realm Vault := .over tolls .default Vault.empty

/-- One half of the road. -/
def half : EdgeId := tolled.shared.mint.advance.nextEdge

/-- A tenant builds a road to a new place, sets the toll on one half of it and
commits. -/
def roadworks : List Move :=
  let root := RootId.ofTenant "acme"
  [.ask root (.createRoot "acme"), .enter "day" root,
    .attend "day" (.perform (.create "place" (.ofEntries [("name", .str "inn")]))),
    .attend "day"
      (.perform (.connect root.node tolled.shared.mint.nextNode "road" Fields.empty false)),
    .attend "day" (.perform (.setField (.edge half) "toll" (.int 5))), .attend "day" .commit]

theorem roadworks_done : (Rulebook.build (Schema.base.extend mapped [])).isOk = true ∧
    (∀ decl ∈ mapped, TypeId.ofName decl.name ≠ rootType) ∧
    Incident.totalMints ((Assembly.begin tolled).journal roadworks) = 3 ∧
    (tolled.shared.mint.upcoming 3).Nodup ∧
    (∀ x ∈ (Assembly.begin tolled).journal roadworks, x.NamesOnce) ∧
    (((Assembly.begin tolled).play roadworks).realm.shared.durable.anchors.get? (.edge half)).bind
      (fun a => (a.fields.get? "toll").bind Value.int?) = some 5 := by
  decide +kernel

theorem tolls_built : Rulebook.build (Schema.base.extend mapped []) = .ok tolls := by
  have hbuilds := roadworks_done.1
  unfold tolls
  cases hbuilt : Rulebook.build (Schema.base.extend mapped []) with
  | error e =>
    rw [hbuilt] at hbuilds
    cases hbuilds
  | ok rules => rfl

theorem tolled_starts : Realm.start tolls .default Vault.empty =
    .ok tolled tolled.shared.durable := Realm.start_eq

end Travel

theorem Assembly.Conforms.vault {rules : Rulebook} {w : Assembly Vault}
    (h : w.Conforms Store.vault rules) {id : ObjectId} {a : Anchor}
    (ha : w.realm.shared.durable.anchors.get? id = some a) : a.Conforms rules := (h.stored ha).2

/-- The half of the road is stored with its toll and conforms. -/
theorem tolled_road_conforms : ∃ a,
    ((Assembly.begin Travel.tolled).play Travel.roadworks).realm.shared.durable.anchors.get?
      (.edge Travel.half) = some a ∧
    (a.fields.get? "toll").bind Value.int? = some 5 ∧ a.Conforms Travel.tolls := by
  obtain ⟨-, hroot, hmints, hnames, hgiven, hfound⟩ := Travel.roadworks_done
  obtain ⟨a, ha, htoll⟩ := Option.bind_eq_some_iff.1 hfound
  have hmint := Mint.ample_of_nodup hnames fun _ _ => not_false
  rw [← hmints] at hmint
  have hblank : Store.vault.holds Vault.empty := fun ha => by cases ha
  have hconforms := objects_conform Store.vault Travel.tolls_built
    (fun decl hdecl hid => absurd hid (hroot decl hdecl)) hblank (fun _ => rfl) Travel.tolled_starts
    Travel.roadworks hmint hgiven
  exact ⟨a, ha, htoll, hconforms.1.vault ha⟩

end Wayfarer
