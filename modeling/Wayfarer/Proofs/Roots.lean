import Wayfarer.Proofs.Assembly
import Wayfarer.Proofs.Concourse.Opening
import Wayfarer.Proofs.Confinement.Operations
import Wayfarer.Proofs.Strokes

/-!
# Roots stay

A `Register` lists the nodes that are roots, among those at which nothing but a
root may ever be. Copies and tiers that agree with it (`Register.holdings`) do
so whatever is done in sessions and on walks (`Register.strokes`), since no
operation makes, removes or hands over a root; only a request for a new root
adds one to the register (`Register.found`).

* `Assembly.Houses` says that a tenant's root is there and can be used.
-/

namespace Wayfarer

/-- A node of the type of roots. -/
def Anchor.IsRoot (a : Anchor) : Prop := a.node?.map (·.type) = some rootType

namespace Anchor

variable {a : Anchor}

theorem IsRoot.type_eq (h : a.IsRoot) : a.type = rootType := by
  cases hb : a.body with
  | node r => simpa [IsRoot, node?, type, hb] using h
  | edge r => simp [IsRoot, node?, hb] at h

theorem isRoot_mapNode {f : NodeRecord → NodeRecord} (hf : ∀ r, (f r).type = r.type) :
    (a.mapNode f).IsRoot ↔ a.IsRoot := by
  cases hb : a.body <;> simp [IsRoot, mapNode, node?, hb, hf]

theorem isRoot_withFields {f : Fields} : (a.withFields f).IsRoot ↔ a.IsRoot := by
  cases hb : a.body <;> simp [IsRoot, withFields, node?, hb]

end Anchor

/-- The next `n` nodes that a mint names are not among certain nodes. -/
def Mint.Avoids (m : Mint) (n : Nat) (nodes : NodeId → Prop) : Prop :=
  ∀ i < n, ¬ nodes (m.after i).nextNode

namespace Mint.Avoids

variable {m : Mint} {n k : Nat} {nodes : NodeId → Prop}

theorem fewer (h : m.Avoids (n + k) nodes) : m.Avoids n nodes :=
  fun i hi => h i (Nat.lt_add_right k hi)

theorem next (h : m.Avoids (n + 1) nodes) : ¬ nodes m.nextNode := h 0 (Nat.succ_pos n)

theorem advance (h : m.Avoids (n + 1) nodes) : m.advance.Avoids n nodes :=
  fun i hi => h (i + 1) (Nat.succ_lt_succ hi)

end Mint.Avoids

/-! ## Registers -/

/-- The nodes that are roots, all of them reserved for roots. -/
structure Register (reserved : NodeId → Prop) where
  roots : NodeId → Prop
  reserve : ∀ {m}, roots m → reserved m

namespace Register

variable {reserved : NodeId → Prop} {reg : Register reserved} {n k : Nat} {d : Desk Vault}

/-- An anchor that agrees with a register: if it is a root it is listed, and at
a reserved node it is a root that belongs to itself. -/
structure Lawful (reg : Register reserved) (id : ObjectId) (a : Anchor) : Prop where
  own : a.id = id
  listed : a.IsRoot → ∃ m, id = .node m ∧ reg.roots m
  reserved : ∀ {m}, id = .node m → reserved m → a.IsRoot ∧ a.owner = ⟨m⟩

theorem Lawful.change {id : ObjectId} {a b : Anchor} (h : reg.Lawful id a) (hid : b.id = a.id)
    (howner : b.owner = a.owner) (hroot : b.IsRoot ↔ a.IsRoot) : reg.Lawful id b := by
  refine ⟨hid.trans h.own, fun hb => h.listed (hroot.1 hb), fun hm hreserved => ?_⟩
  obtain ⟨ha, hself⟩ := h.reserved hm hreserved
  exact ⟨hroot.2 ha, howner.trans hself⟩

/-- Anchors that agree with a register. -/
def holdings (reg : Register reserved) : Holdings Vault where
  good := reg.Lawful
  own h := h.own
  marked _ _ h := h.change rfl rfl Iff.rfl
  holds v := ∀ {id a}, v.anchors.get? id = some a → reg.Lawful id a
  fetched := by
    intro v v' id a h hfetch
    injection hfetch with hfound
    exact h hfound
  kept _ h := h

/-- A draft that agrees with a register and removes nothing from reserved
nodes. -/
structure Drafts (reg : Register reserved) (d : Draft) : Prop extends reg.holdings.Drafts d where
  spared : ∀ {m v}, d.removed? (.node m) = some v → ¬ reserved m

/-- Tiers that agree with a register and have all roots stored; the next `n` new
nodes are not reserved. -/
structure Tiers (reg : Register reserved) (n : Nat) (s : Shared Vault) : Prop
    extends reg.holdings.Tiers s where
  stored : ∀ {m}, reg.roots m → ∃ a, s.durable.anchors.get? (.node m) = some a
  mint : s.mint.Avoids n reserved

/-- A desk that agrees with a register. -/
def Agrees (reg : Register reserved) (n : Nat) (d : Desk Vault) : Prop :=
  reg.Drafts d.draft ∧ reg.Tiers n d.shared

theorem Drafts.of_empty {d : Draft} (hv : d.volatile = Table.empty)
    (ht : d.tombstones = Table.empty) :
    reg.Drafts d := by
  refine ⟨.of_empty hv, fun hr => ?_⟩
  rw [Draft.removed?, ht] at hr
  cases hr

namespace Agrees

theorem desk (h : reg.Agrees n d) : reg.holdings.Desks d := ⟨h.1.toDrafts, h.2.toTiers⟩

/-- Whatever keeps the anchors lawful, and the tombstones, the vault and the
mint as they are. -/
theorem same {d' : Desk Vault} (h : reg.Agrees n d) (hdesk : reg.holdings.Desks d')
    (hdurable : d'.shared.durable = d.shared.durable) (hmint : d'.shared.mint = d.shared.mint)
    (hspared : ∀ {m v}, d'.draft.removed? (.node m) = some v → ¬ reserved m) : reg.Agrees n d' :=
  ⟨⟨hdesk.draft, hspared⟩, ⟨hdesk.tiers, hdurable ▸ h.2.stored, hmint ▸ h.2.mint⟩⟩

theorem fewer (h : reg.Agrees (n + k) d) : reg.Agrees n d :=
  ⟨h.1, ⟨h.2.toTiers, h.2.stored, h.2.mint.fewer⟩⟩

theorem minted (h : reg.Agrees (n + 1) d) : reg.Agrees n d.minted :=
  ⟨h.1, ⟨h.desk.minted.tiers, h.2.stored, h.2.mint.advance⟩⟩

theorem staged {a : Anchor} (h : reg.Agrees n d) (ha : reg.Lawful a.id a) :
    reg.Agrees n (d.staged a) := by
  refine h.same (h.desk.staged ha) rfl rfl fun hr => ?_
  rw [Desk.staged, Draft.stage_removed?] at hr
  split at hr
  · cases hr
  · exact h.1.spared hr

theorem change {id : ObjectId} {a b : Anchor} (h : reg.Agrees n d) (ha : d.draft.copy? id = some a)
    (hb : reg.Lawful id b) : reg.Agrees n (d.keep id b) :=
  h.same (h.desk.change ha hb) rfl rfl h.1.spared

theorem bury {id : ObjectId} {a : Anchor} (h : reg.Agrees n d)
    (hid : ∀ m, id = .node m → ¬ reserved m) : reg.Agrees n (d.bury id a) := by
  refine h.same (h.desk.bury id a) rfl rfl fun {m v} hr => ?_
  rw [Desk.bury_removed?] at hr
  split at hr
  · rename_i hm
    exact hid m hm.1.symm
  · exact h.1.spared hr

end Agrees

theorem browses (reg : Register reserved) (n : Nat) : Desk.Browses (reg.Agrees n) := by
  intro id d h
  have hboth := (reg.holdings.browses.and (.steady fun tombstones vault mint =>
    (∀ {m v}, tombstones.get? (.node m) = some v → ¬ reserved m) ∧
      (∀ {m}, reg.roots m → ∃ a, vault.anchors.get? (.node m) = some a) ∧ mint.Avoids n reserved))
    id d ⟨h.desk, h.1.spared, h.2.stored, h.2.mint⟩
  exact hboth.mono (fun _ _ h => ⟨⟨h.1.draft, h.2.1⟩, ⟨h.1.tiers, h.2.2.1, h.2.2.2⟩⟩)
    fun _ _ h => ⟨⟨h.1.draft, h.2.1⟩, ⟨h.1.tiers, h.2.2.1, h.2.2.2⟩⟩

/-! ## Operations -/

/-- New nodes may be of any type that is not taken for that of roots. -/
def terms : Terms :=
  ⟨fun name _ => ¬ TypeId.Creatable name rootType, fun _ _ => True, fun _ => True⟩

theorem meets_of_plain {op : Op} (h : ¬ op.Creates rootType) : op.Meets terms := by
  cases op with
  | create => exact h
  | createLinked => exact ⟨h, trivial⟩
  | _ => exact trivial

theorem not_root_of_makes {rules : Rulebook} {record : NodeRecord}
    (h : terms.MakesNode rules record) : record.type ≠ rootType := by
  obtain ⟨name, given, htype, hname, hplain, -, -⟩ := h
  intro hroot
  exact hplain ⟨hroot ▸ (Taxonomy.resolveKind_eq_some htype).1, hname⟩

theorem Lawful.ofEdge {e : EdgeId} {owner : RootId} {record : EdgeRecord} :
    reg.Lawful (.edge e) (.ofEdge e owner record) := by
  refine ⟨rfl, fun hroot => ?_, fun hm => ObjectId.noConfusion hm⟩
  simp [Anchor.IsRoot, Anchor.ofEdge, Anchor.node?] at hroot

theorem Lawful.ofNode {m : NodeId} {owner : RootId} {record : NodeRecord}
    (hplain : record.type ≠ rootType) (hm : ¬ reserved m) :
    reg.Lawful (.node m) (.ofNode m owner record) :=
  ⟨rfl, fun hroot => absurd hroot.type_eq hplain, fun hid hreserved =>
    absurd (ObjectId.node.inj hid ▸ hreserved) hm⟩

/-- Nothing that operations are made of changes which nodes are roots. -/
theorem strokes (reg : Register reserved) (rules : Rulebook) :
    Strokes rules terms (fun m => ¬ reserved m) reg.Agrees where
  browses := reg.browses
  fewer := .fewer
  keyed h := h.1.keyed
  node _ hmakes h := h.minted.staged (.ofNode (not_root_of_makes hmakes) h.2.mint.next)
  edge _ _ _ _ h := h.minted.staged .ofEdge
  pair _ _ _ _ h := (h.minted.minted.staged .ofEdge).staged .ofEdge
  adjust {_ _ _ a f} h ha hf := h.change ha ((h.1.copies ha).change (a.mapNode_id f)
    (a.mapNode_owner f) (Anchor.isRoot_mapNode fun r => (hf r).1))
  access _ h ha := h.change ha ((h.1.copies ha).change rfl rfl Iff.rfl)
  field _ h _ _ _ _ hb := h.change hb ((h.1.copies hb).change (Anchor.withFields_id ..)
    (Anchor.withFields_owner ..) Anchor.isRoot_withFields)
  bury h _ hid := h.bury hid
  seen h ha htype hreserved := htype ((h.1.copies ha).reserved rfl hreserved).1.type_eq

/-! ## Commits -/

/-- A commit keeps the roots that were stored and stores those that were
staged. -/
theorem commit (hdraft : reg.Drafts d.draft) (htiers : reg.holdings.Tiers d.shared)
    (hmint : d.shared.mint.Avoids n reserved)
    (hroots : ∀ {m}, reg.roots m → (∃ a, d.draft.copy? (.node m) = some a ∧ a.dirty = true) ∨
      ∃ a, d.shared.durable.anchors.get? (.node m) = some a) :
    Work.Ends Desk.commit d (fun _ => reg.Agrees n) fun _ d' => d' = d := by
  have hlawful : ∀ {id a}, (Vault.overlay d.shared.durable.anchors d.draft.batch).get? id = some a →
      reg.Lawful id a := by
    intro id a ha
    rcases hdraft.keyed.of_overlay ha with ⟨b, hb, _, rfl⟩ | ⟨_, hold⟩
    · exact reg.holdings.marked _ _ (hdraft.copies hb)
    · exact htiers.durable hold
  have hstored : ∀ {m}, reg.roots m →
      ∃ a, (Vault.overlay d.shared.durable.anchors d.draft.batch).get? (.node m) = some a := by
    intro m hm
    by_cases hp : d.draft.Pending (.node m)
    · rcases hp with ⟨a, ha, hdirty⟩ | ⟨v, hv⟩
      · exact ⟨_, hdraft.keyed.overlay_of_dirty ha hdirty⟩
      · exact absurd (reg.reserve hm) (hdraft.spared hv)
    · rw [hdraft.keyed.overlay_of_idle hp]
      exact (hroots hm).resolve_left fun ⟨a, ha, hdirty⟩ => hp (.inl ⟨a, ha, hdirty⟩)
  have hdesk : reg.holdings.Desks d := ⟨hdraft.toDrafts, htiers⟩
  refine (Holdings.commit hdesk hlawful).imp ?_
  rintro _ _ ⟨hpublished, rfl⟩
  have hdurable : d.published.shared.durable.anchors =
      Vault.overlay d.shared.durable.anchors d.draft.batch := Sound.stored_published d
  refine ⟨⟨hpublished.draft, fun hr => by (cases hr)⟩, hpublished.tiers, ?_, ?_⟩
  · rwa [hdurable]
  · rwa [Sound.mint_published]

theorem Agrees.commit (h : reg.Agrees n d) :
    Work.Ends Desk.commit d (fun _ => reg.Agrees n) fun _ => reg.Agrees n :=
  (Register.commit h.1 h.2.toTiers h.2.mint fun hm => .inr (h.2.stored hm)).mono (fun _ _ h' => h')
    fun _ _ he => he ▸ h

theorem conclude (root : RootId) : Work.Keeps (reg.Agrees n) (Desk.conclude root) :=
  .bind ((reg.strokes default).evictUnreachable root) fun _ _ h => h.commit

/-! ## Sessions and walks -/

/-- Agreeing with a register as a custom. -/
def custom (reg : Register reserved) : Custom Vault :=
  .fixed reg.Drafts reg.Tiers (.of_empty rfl rfl)

/-- What is taken for granted of something noted: no operation makes a node
whose type is taken for that of roots. -/
def Plain {σ : Type} : Incident σ → Prop
  | .performs _ op => ¬ op.Creates rootType
  | .commits _ _ => True

theorem desks (reg : Register reserved) (rules : Rulebook) (k : reg.custom.Known) :
    Desk.Custom rules Plain (fun _ => True) (reg.custom.Desks k) := by
  have hsame : reg.custom.Desks k = reg.Agrees :=
    funext fun n => funext fun d => propext Custom.desks_fixed
  rw [hsame]
  refine ⟨reg.browses, fun h _ => ?_, fun h => ?_, fun h => ?_, fun ha h hop => ?_,
    fun root h _ => ?_⟩
  · exact ⟨h.1, ⟨h.2.durable, h.2.cached⟩, h.2.stored, h.2.mint⟩
  · exact ⟨.of_empty rfl rfl, h.2⟩
  · exact ⟨⟨h.1.evict, h.1.spared⟩, h.2⟩
  · exact ⟨(reg.strokes rules).run ha (meets_of_plain hop) h, trivial⟩
  · exact ⟨Work.Ends.endOf (conclude root _ h), fun _ _ => trivial⟩

/-! ## New roots -/

/-- The register with one more root. -/
def add (reg : Register reserved) (m : NodeId) (hm : reserved m) : Register reserved :=
  ⟨fun x => reg.roots x ∨ x = m, fun h => h.elim reg.reserve fun heq => heq ▸ hm⟩

section Add

variable {m : NodeId} {hm : reserved m}

theorem Lawful.add {id : ObjectId} {a : Anchor} (h : reg.Lawful id a) :
    (reg.add m hm).Lawful id a :=
  ⟨h.own, fun hroot => (h.listed hroot).imp fun _ hx => ⟨hx.1, .inl hx.2⟩, h.reserved⟩

theorem Drafts.add {d : Draft} (h : reg.Drafts d) : (reg.add m hm).Drafts d :=
  ⟨h.toDrafts.mono .add, h.spared⟩

theorem Tiers.lawful {s : Shared Vault} (h : reg.Tiers n s) : (reg.add m hm).holdings.Tiers s :=
  h.toTiers.mono .add fun hd _ _ ha => (hd ha).add

theorem Tiers.add {s : Shared Vault} (h : reg.Tiers n s) (hroot : reg.roots m) :
    (reg.add m hm).Tiers n s :=
  ⟨h.lawful, fun hx => h.stored (hx.elim id fun heq => heq ▸ hroot), h.mint⟩

end Add

/-- A request for somebody's root makes it a root, unless it fails. -/
theorem found {root : RootId} (hroot : reserved root.node) {s : Shared Vault} (h : reg.Tiers n s) :
    Work.Ends (Realm.foundRoot root) ⟨Draft.empty, s⟩
      (fun _ d => (reg.add root.node hroot).Tiers n d.shared) fun _ d => reg.Tiers n d.shared := by
  have hblank : reg.Agrees n ⟨Draft.empty, s⟩ := ⟨.of_empty rfl rfl, h⟩
  refine .bind (.bind (((reg.browses n).load hblank root).mono ?_ fun _ _ h' => h'.2))
  rintro found d ⟨hd, hcopy⟩
  cases found with
  | some a =>
    have hlawful := hd.1.copies (hcopy a rfl)
    obtain ⟨m, hm, hlisted⟩ := hlawful.listed (hlawful.reserved rfl hroot).1
    exact .pure (.pure (hd.2.add (ObjectId.node.inj hm ▸ hlisted)))
  | none =>
    let new := Anchor.ofNode root.node root (.isolated rootType Fields.empty)
    have hnew : (reg.add root.node hroot).Lawful new.id new :=
      ⟨rfl, fun _ => ⟨root.node, rfl, .inr rfl⟩,
        fun hm _ => ⟨rfl, by rw [← ObjectId.node.inj hm]; rfl⟩⟩
    have hdesk : (reg.add root.node hroot).holdings.Desks d := ⟨hd.1.add.toDrafts, hd.2.lawful⟩
    have hspared : ∀ {m v}, (d.staged new).draft.removed? (.node m) = some v → ¬ reserved m := by
      intro m v hr
      rw [Desk.staged, Draft.stage_removed?] at hr
      split at hr
      · cases hr
      · exact hd.1.spared hr
    have hcommit : Work.Ends Desk.commit (d.staged new)
        (fun _ => (reg.add root.node hroot).Agrees n) fun _ d' => d' = d.staged new := by
      refine commit ⟨(hdesk.staged hnew).draft, hspared⟩ (hdesk.staged hnew).tiers hd.2.mint ?_
      rintro m (hm | rfl)
      · exact .inr (hd.2.stored hm)
      · exact .inl ⟨{ new with dirty := true }, by
          rw [Desk.staged, Draft.stage_copy?,
            if_pos (show ObjectId.node root.node = new.id from rfl)], rfl⟩
    exact .bind (.modify (.pure (.bind (hcommit.mono (fun _ _ h' => .pure h'.2)
      fun _ _ he => he ▸ hd.2))))

end Register

theorem Realm.createRoot_result {σ : Type} [Durable σ] (tenant : String) (r : Realm σ) :
    createRoot tenant r = match foundRoot (RootId.ofTenant tenant) ⟨Draft.empty, r.shared⟩ with
      | .ok _ d => .ok (RootId.ofTenant tenant) { r with shared := d.shared }
      | .error e d => .error e { r with shared := d.shared } := by
  rw [createRoot_eq]
  generalize RootId.ofTenant tenant = root
  simp only [bind, EStateM.bind, request, work]
  cases foundRoot root ⟨Draft.empty, r.shared⟩ <;> rfl

/-! ## One move after another -/

/-- A request for the root of a tenant. -/
def Move.Founds (move : Move) (tenant : String) : Prop :=
  ∃ asker, move = .ask asker (.createRoot tenant)

namespace Register

variable {reserved : NodeId → Prop} {reg : Register reserved} {n : Nat} {rules : Rulebook}
  {w : Assembly Vault} {move : Move} {tenant : String}

/-- An assembly that agrees with a register. -/
def Rules (reg : Register reserved) (rules : Rulebook) (n : Nat) (w : Assembly Vault) : Prop :=
  reg.custom.Assemblies rules () n w

/-- No other move changes the register. -/
theorem Rules.step (h : reg.Rules rules (n + Incident.totalMints (w.note move)) w)
    (hmove : ∀ tenant, ¬ move.Founds tenant) (hops : ∀ x ∈ w.note move, Plain x) :
    reg.Rules rules n (w.step move) := by
  obtain ⟨⟨_, _, h'⟩, _⟩ := Custom.step (reg.desks rules) move
    (fun root tenant hask => absurd ⟨root, hask⟩ (hmove tenant)) h hops
  exact h'

/-- A request for a root adds it, unless it fails. -/
theorem Rules.founded (h : reg.Rules rules n w) (asker : RootId)
    (hroot : reserved (RootId.ofTenant tenant).node) :
    (∃ r, Realm.createRoot tenant w.realm = .ok (RootId.ofTenant tenant) r ∧
      (reg.add _ hroot).Rules rules n (w.step (.ask asker (.createRoot tenant)))) ∨
    ((∃ e r, Realm.createRoot tenant w.realm = .error e r) ∧
      reg.Rules rules n (w.step (.ask asker (.createRoot tenant)))) := by
  have hfound := found hroot h.tiers
  have hresult := Realm.createRoot_result tenant w.realm
  simp only [Assembly.step, Realm.after]
  generalize RootId.ofTenant tenant = root at hroot hfound hresult ⊢
  unfold endOf
  cases hw : Realm.foundRoot root ⟨Draft.empty, w.realm.shared⟩ with
  | ok _ d =>
    rw [hw] at hresult
    rw [hresult]
    exact .inl ⟨_, rfl, h.rules, hfound.ok hw, fun hs => (h.drafts hs).add⟩
  | error e d =>
    rw [hw] at hresult
    rw [hresult]
    exact .inr ⟨⟨e, _, rfl⟩, h.rules, hfound.error hw, h.drafts⟩

/-- Whatever happens, nobody is struck off the register. -/
theorem Rules.play {moves : List Move}
    (h : reg.Rules rules (n + Incident.totalMints (w.journal moves)) w)
    (hreserved : ∀ move ∈ moves, ∀ tenant, Move.Founds move tenant →
      reserved (RootId.ofTenant tenant).node)
    (hops : ∀ x ∈ w.journal moves, Plain x) :
    ∃ reg' : Register reserved, (∀ m, reg.roots m → reg'.roots m) ∧
      reg'.Rules rules n (w.play moves) := by
  induction moves generalizing w reg with
  | nil => exact ⟨reg, fun _ hm => hm, h⟩
  | cons move rest ih =>
    rw [Assembly.journal, Incident.totalMints_append] at h
    rw [Assembly.journal, List.forall_mem_append] at hops
    rw [List.forall_mem_cons] at hreserved
    have hnext : ∃ reg' : Register reserved, (∀ m, reg.roots m → reg'.roots m) ∧
        reg'.Rules rules (n + Incident.totalMints ((w.step move).journal rest)) (w.step move) := by
      by_cases hmove : ∃ tenant, move.Founds tenant
      · obtain ⟨tenant, asker, rfl⟩ := hmove
        have hnone : Incident.totalMints (w.note (.ask asker (.createRoot tenant))) = 0 :=
          Incident.totalMints_founding _ _
        rw [hnone, Nat.add_zero] at h
        rcases h.founded asker (hreserved.1 tenant ⟨asker, rfl⟩) with ⟨_, _, h'⟩ | ⟨_, h'⟩
        · exact ⟨_, fun _ hm => Or.inl hm, h'⟩
        · exact ⟨reg, fun _ hm => hm, h'⟩
      · exact ⟨reg, fun _ hm => hm, h.step (fun tenant hf => hmove ⟨tenant, hf⟩) hops.1⟩
    obtain ⟨reg₁, hle₁, h₁⟩ := hnext
    obtain ⟨reg₂, hle₂, h₂⟩ := ih h₁ hreserved.2 hops.2
    exact ⟨reg₂, fun m hm => hle₂ m (hle₁ m hm), h₂⟩

end Register

/-! ## What a root is good for -/

/-- What is stored can be loaded, unless it was removed before. -/
theorem Desk.load_of_stored {d : Desk Vault} {id : ObjectId} {a : Anchor}
    (hr : d.draft.removed? id = none) (ha : d.shared.durable.anchors.get? id = some a) :
    Work.Ends (Desk.load id) d (fun found _ => found.isSome = true) fun _ _ => False := by
  have hkept : ∀ {d' : Desk Vault} {b : Anchor}, d'.draft.copy? id = some b →
      Work.Ends (do pure ((← get).draft.volatile.get? id) : Work Vault (Option Anchor)) d'
        (fun found _ => found.isSome = true) fun _ _ => False := fun hb =>
    .bind (.get (.pure (Option.isSome_of_eq_some hb)))
  have hinsert : ∀ b, (d.draft.volatile.insert id b).get? id = some b := fun b => by
    rw [Table.get?_insert, if_pos rfl]
  refine .bind (.bind (.get ?_))
  rw [if_neg (by simp [Table.contains, show d.draft.tombstones.get? id = none from hr])]
  split
  · rename_i hhere
    obtain ⟨b, hb⟩ := Table.contains_iff.1 hhere
    exact .bind (.set (.pure (hkept hb)))
  · split
    · rename_i b _
      exact .bind (.set (.pure (hkept (hinsert b))))
    · have hfetch : Durable.fetch id d.shared.durable = .ok (some a) d.shared.durable := by
        rw [← ha]
        rfl
      exact .bind (.modify (.bind (.of_ok (Desk.onDurable_of_ok hfetch)
        (.bind (.modify (.pure (hkept (hinsert a.clean))))))))

/-- A tenant's root is stored, belongs to the tenant, can be worked with, and
need not be made again. -/
structure Assembly.Houses (w : Assembly Vault) (root : RootId) (tenant : String) : Prop where
  stored : ∃ a, w.realm.shared.durable.anchors.get? root = some a ∧ a.IsRoot ∧ a.owner = root
  session : ∃ s r, Realm.session root w.realm = .ok s r
  again : ∃ r, Realm.createRoot tenant w.realm = .ok root r ∧
    r.shared.durable = w.realm.shared.durable

namespace Register

variable {reserved : NodeId → Prop} {reg : Register reserved} {n : Nat} {rules : Rulebook}
  {w : Assembly Vault}

/-- A root that is listed is loaded, and belongs to itself. -/
theorem load_root {s : Shared Vault} {root : RootId} (h : reg.Tiers n s)
    (hroot : reg.roots root.node) :
    Work.Ends (Desk.load root) ⟨Draft.empty, s⟩
      (fun found d => (∃ a, found = some a ∧ a.owner = root) ∧ d.shared.durable = s.durable)
      fun _ _ => False := by
  obtain ⟨a, ha⟩ := h.stored hroot
  have hblank : reg.Agrees n ⟨Draft.empty, s⟩ := ⟨.of_empty rfl rfl, h⟩
  have hfound := Desk.load_of_stored (d := ⟨Draft.empty, s⟩) rfl ha
  have hsame : Desk.Browses fun d : Desk Vault => d.shared.durable = s.durable :=
    .steady fun _ vault _ => vault = s.durable
  refine ((((reg.browses n).load hblank root).and (hsame root _ rfl)).and hfound).mono ?_
    fun _ _ h' => h'.2
  rintro found d ⟨⟨⟨hd, hcopy⟩, hdurable⟩, hsome⟩
  obtain ⟨b, rfl⟩ := Option.isSome_iff_exists.1 hsome
  exact ⟨⟨b, rfl, ((hd.1.copies (hcopy b rfl)).reserved rfl (reg.reserve hroot)).2⟩, hdurable⟩

theorem Rules.houses (h : reg.Rules rules n w) {tenant : String}
    (hroot : reg.roots (RootId.ofTenant tenant).node) :
    w.Houses (RootId.ofTenant tenant) tenant := by
  have hresult := Realm.createRoot_result tenant w.realm
  generalize RootId.ofTenant tenant = root at hroot hresult ⊢
  obtain ⟨a, ha⟩ := h.tiers.stored hroot
  have hlawful : reg.Lawful root a := h.tiers.durable ha
  have hload := load_root h.tiers hroot
  refine ⟨⟨a, ha, hlawful.reserved rfl (reg.reserve hroot)⟩, ?_, ?_⟩
  · have hrequire : Work.Ends (Realm.requireRoot (w.realm.actor root)) ⟨Draft.empty, w.realm.shared⟩
        (fun _ _ => True) fun _ _ => False := by
      refine .bind (.bind (hload.andThen ?_))
      rintro _ d ⟨⟨b, rfl, howner⟩, _⟩
      have hread : b.permits root .read = true :=
        Anchor.permits_of_write (Anchor.effective_of_owner howner)
      refine .pure (.pure ?_)
      rw [Option.filter_some, show b.permits (w.realm.actor root).requester .read = true from hread]
      exact .pure trivial
    obtain ⟨_, d, hw, _⟩ := hrequire.exists_ok
    refine ⟨⟨root, d.draft⟩, { w.realm with shared := d.shared }, ?_⟩
    simp only [Realm.session, Realm.work, hw]
  · have hfound : Work.Ends (Realm.foundRoot root) ⟨Draft.empty, w.realm.shared⟩
        (fun _ d => d.shared.durable = w.realm.shared.durable) fun _ _ => False := by
      refine .bind (hload.andThen ?_)
      rintro _ d ⟨⟨b, rfl, _⟩, hdurable⟩
      exact .pure (.pure hdurable)
    obtain ⟨_, d, hw, hdurable⟩ := hfound.exists_ok
    rw [hw] at hresult
    exact ⟨_, hresult, hdurable⟩

end Register

/-! ## Roots are permanent -/

/-- A vault that may have been worked with before: what it stores is under its
own identity, and nodes are roots only if they belong to themselves; at certain
nodes there are no others. -/
structure Vault.Rooted (v : Vault) (nodes : NodeId → Prop) : Prop where
  own : ∀ {id a}, v.anchors.get? id = some a → a.id = id
  self : ∀ {id a}, v.anchors.get? id = some a → a.IsRoot → ∃ m, id = .node m ∧ a.owner = ⟨m⟩
  nodes : ∀ {m a}, nodes m → v.anchors.get? (.node m) = some a → a.IsRoot

/-- The nodes of roots that are asked for in some moves. -/
def Move.Sites (moves : List Move) (m : NodeId) : Prop :=
  ∃ move ∈ moves, ∃ tenant, Move.Founds move tenant ∧ m = (RootId.ofTenant tenant).node

/-- A node at which a vault stores a root. -/
def Vault.RootAt (v : Vault) (m : NodeId) : Prop :=
  ∃ a, v.anchors.get? (.node m) = some a ∧ a.IsRoot

/-- The register of a vault. -/
def Vault.register (v : Vault) (nodes : NodeId → Prop) : Register fun m => nodes m ∨ v.RootAt m :=
  ⟨v.RootAt, .inr⟩

theorem Vault.Rooted.rules {vault vault' : Vault} {nodes : NodeId → Prop} (h : vault.Rooted nodes)
    {rulebook : Rulebook} {config : RealmConfig} {realm : Realm Vault} {n : Nat}
    (hstart : Realm.start rulebook config vault = .ok realm vault')
    (hmint : realm.shared.mint.Avoids n fun m => nodes m ∨ vault.RootAt m) :
    (vault.register nodes).Rules rulebook n (Assembly.begin realm) := by
  have hlawful : ∀ {id a}, vault.anchors.get? id = some a → (vault.register nodes).Lawful id a := by
    intro id a ha
    refine ⟨h.own ha, fun hroot => ?_, fun hm hreserved => ?_⟩
    · obtain ⟨m, rfl, _⟩ := h.self ha hroot
      exact ⟨m, rfl, a, ha, hroot⟩
    · subst hm
      have hroot : a.IsRoot := by
        rcases hreserved with hm | ⟨b, hb, hroot⟩
        · exact h.nodes hm ha
        · obtain rfl : a = b := Option.some.inj (ha.symm.trans hb)
          exact hroot
      obtain ⟨m, hm, howner⟩ := h.self ha hroot
      exact ⟨hroot, howner.trans (by rw [ObjectId.node.inj hm])⟩
  cases hstart
  exact ⟨rfl, ⟨⟨hlawful, fun he => by cases he⟩, fun ⟨a, ha, _⟩ => ⟨a, ha⟩, hmint⟩,
    fun hs => by cases hs⟩

/-- An anchor that is stored, or held by a session. -/
def Assembly.Holds (w : Assembly Vault) (id : ObjectId) (a : Anchor) : Prop :=
  w.realm.shared.durable.anchors.get? id = some a ∨
    ∃ name s, w.sessions.get? name = some s ∧ s.draft.copy? id = some a

theorem Register.Rules.listed {reserved : NodeId → Prop} {reg : Register reserved}
    {rules : Rulebook} {n : Nat} {w : Assembly Vault} (h : reg.Rules rules n w) {id : ObjectId}
    {a : Anchor} (ha : w.Holds id a) (hroot : a.IsRoot) : ∃ m, id = .node m ∧ reg.roots m := by
  rcases ha with ha | ⟨name, s, hs, ha⟩
  · exact (h.tiers.durable ha).listed hroot
  · exact ((h.drafts hs).copies ha).listed hroot

theorem Register.Rules.rootAt {reserved : NodeId → Prop} {reg : Register reserved}
    {rules : Rulebook} {n : Nat} {w : Assembly Vault} (h : reg.Rules rules n w) {m : NodeId}
    (hm : reg.roots m) :
    w.realm.shared.durable.RootAt m := by
  obtain ⟨a, ha⟩ := h.tiers.stored hm
  exact ⟨a, ha, ((h.tiers.durable ha).reserved rfl (reg.reserve hm)).1⟩

/-- Once a request for a tenant's root has succeeded, the root stays for good,
whatever sessions and walks of any tenants do. And no other request makes a root
appear, in the vault or in a session. -/
theorem roots_are_permanent {rulebook : Rulebook} {config : RealmConfig} {vault vault' : Vault}
    {realm : Realm Vault} (hstart : Realm.start rulebook config vault = .ok realm vault')
    (moves : List Move) (hvault : vault.Rooted (Move.Sites moves))
    (hmint : realm.shared.mint.Avoids (Incident.totalMints ((Assembly.begin realm).journal moves))
      fun m => Move.Sites moves m ∨ vault.RootAt m)
    (hops : ∀ {d op}, .performs d op ∈ (Assembly.begin realm).journal moves →
      ¬ op.Creates rootType) :
    (∀ {before after asker tenant id r},
      moves = before ++ .ask asker (.createRoot tenant) :: after →
      Realm.createRoot tenant ((Assembly.begin realm).play before).realm = .ok id r →
        id = RootId.ofTenant tenant ∧ ((Assembly.begin realm).play moves).Houses id tenant) ∧
    ∀ {before move after}, moves = before ++ move :: after → (∀ tenant, ¬ Move.Founds move tenant) →
      ∀ {id a}, (((Assembly.begin realm).play before).step move).Holds id a → a.IsRoot →
        ∃ m, id = .node m ∧ ((Assembly.begin realm).play before).realm.shared.durable.RootAt m := by
  have hplain : ∀ x ∈ (Assembly.begin realm).journal moves, Register.Plain x := by
    intro x hx
    cases x with
    | performs d op => exact hops hx
    | commits before after => trivial
  have hsites : ∀ move ∈ moves, ∀ tenant, Move.Founds move tenant →
      Move.Sites moves (RootId.ofTenant tenant).node ∨ vault.RootAt (RootId.ofTenant tenant).node :=
    fun move hmem tenant hf => .inl ⟨move, hmem, tenant, hf, rfl⟩
  -- before each move there is a register, with enough of the mint left for that move
  -- and the rest
  have hreached : ∀ {before move after}, moves = before ++ move :: after →
      ∃ reg : Register fun m => Move.Sites moves m ∨ vault.RootAt m, reg.Rules rulebook
        (Incident.totalMints ((((Assembly.begin realm).play before).step move).journal after) +
          Incident.totalMints (((Assembly.begin realm).play before).note move))
        ((Assembly.begin realm).play before) := by
    rintro before move after rfl
    rw [Assembly.journal_append, Assembly.journal] at hmint hplain
    rw [Incident.totalMints_concat, Incident.totalMints_concat] at hmint
    obtain ⟨reg, _, hreg⟩ := (hvault.rules hstart hmint).play
      (fun x hx => hsites x (List.mem_append_left _ hx))
      fun x hx => hplain x (List.mem_append_left _ hx)
    exact ⟨reg, hreg⟩
  have hnoted : ∀ {before move after}, moves = before ++ move :: after →
      (∀ x ∈ ((Assembly.begin realm).play before).note move, Register.Plain x) ∧
        ∀ x ∈ (((Assembly.begin realm).play before).step move).journal after, Register.Plain x := by
    rintro before move after rfl
    rw [Assembly.journal_append, Assembly.journal, List.forall_mem_append,
      List.forall_mem_append] at hplain
    exact hplain.2
  refine ⟨?_, ?_⟩
  · intro before after asker tenant id r hmoves hcreated
    obtain ⟨reg, hreg⟩ := hreached hmoves
    have hmem : .ask asker (.createRoot tenant) ∈ moves :=
      hmoves ▸ List.mem_append_right _ (List.mem_cons_self ..)
    have hnone : Incident.totalMints (((Assembly.begin realm).play before).note
        (.ask asker (.createRoot tenant))) = 0 := Incident.totalMints_founding _ _
    rw [hnone, Nat.add_zero] at hreg
    rcases hreg.founded asker (hsites _ hmem tenant ⟨asker, rfl⟩) with
      ⟨r', hok, hnext⟩ | ⟨⟨e, r', herror⟩, _⟩
    · rw [← Nat.zero_add (Incident.totalMints _)] at hnext
      obtain ⟨reg', hle, hend⟩ := hnext.play
        (fun x hx => hsites x (hmoves ▸ List.mem_append_right _ (List.mem_cons_of_mem _ hx)))
        (hnoted hmoves).2
      rw [hok] at hcreated
      injection hcreated with hid _
      subst hid
      rw [hmoves, Assembly.play_append]
      exact ⟨rfl, hend.houses (hle _ (.inr rfl))⟩
    · rw [herror] at hcreated
      cases hcreated
  · intro before move after hmoves hmove id a ha hroot
    obtain ⟨reg, hreg⟩ := hreached hmoves
    obtain ⟨m, rfl, hm⟩ := (hreg.step hmove (hnoted hmoves).1).listed ha hroot
    exact ⟨m, rfl, hreg.rootAt hm⟩

/-! ## A tenant that wants its root gone -/

namespace Travel

/-- A realm without any types of its own that has just started over an empty
vault. -/
def bare : Realm Vault :=
  .over ((Rulebook.build Schema.base).toOption.getD default) .default Vault.empty

/-- A tenant gets a root, destroys it in a session, and commits. -/
def eviction : List Move :=
  let root := RootId.ofTenant "acme"
  [.ask root (.createRoot "acme"), .enter "day" root,
    .attend "day" (.perform (.destroy root.node)), .attend "day" .commit]

/-- Whether something noted neither makes nor names anything. -/
def harmless : Incident Vault → Bool
  | .performs _ (.destroy _) => true
  | .performs _ _ => false
  | .commits _ _ => true

theorem eviction_harmless : ((Assembly.begin bare).journal eviction).all harmless = true ∧
    Incident.totalMints ((Assembly.begin bare).journal eviction) = 0 ∧
      (match Realm.createRoot "acme" bare with
        | .ok _ _ => true
        | .error _ _ => false) = true := by
  decide +kernel

end Travel

/-- The tenant that has destroyed its root still has it. -/
theorem root_outlives_eviction : ((Assembly.begin Travel.bare).play Travel.eviction).Houses
    (RootId.ofTenant "acme") "acme" := by
  obtain ⟨hharmless, hnone, hok⟩ := Travel.eviction_harmless
  have hops : ∀ {d op}, .performs d op ∈ (Assembly.begin Travel.bare).journal Travel.eviction →
      ¬ op.Creates rootType := by
    intro d op hx hcreates
    have hmild := List.all_eq_true.1 hharmless _ hx
    cases op with
    | destroy m => exact hcreates
    | _ => cases hmild
  have hempty : Vault.empty.Rooted (Move.Sites Travel.eviction) :=
    ⟨fun ha => by (cases ha), fun ha => by (cases ha), fun _ ha => by (cases ha)⟩
  cases hw : Realm.createRoot "acme" Travel.bare with
  | error e r =>
    rw [hw] at hok
    cases hok
  | ok id r =>
    have hmint : Travel.bare.shared.mint.Avoids
        (Incident.totalMints ((Assembly.begin Travel.bare).journal Travel.eviction))
        fun m => Move.Sites Travel.eviction m ∨ Vault.empty.RootAt m := by
      rw [hnone]
      exact fun i hi => absurd hi (Nat.not_lt_zero i)
    obtain ⟨rfl, hhouses⟩ :=
      (roots_are_permanent Realm.start_eq Travel.eviction hempty hmint hops).1
        (List.nil_append _).symm hw
    exact hhouses

end Wayfarer
