import Wayfarer.Proofs.Wiring

/-!
# Steps of a draft

One lemma for each thing that a request does to its draft, saying how `Wired`
comes out of it: reading (`Wired.loaded`), changing a node's lists
(`Wired.rewire`), changing an edge (`Wired.editEdge`), adding an object
(`Wired.stageNode`, `Wired.stageEdge`), removing one (`Wired.buryEdge`,
`Wired.buryNode`), and the bookkeeping of edges that are due and nodes that are
dead.

A step makes or changes one copy, while `Wired` speaks of all of them. It is
taken apart first, into what it says of each copy (`CopyWired`) and of what was
removed. Steps that remove nothing are then of one kind (`Keeps`): whatever
holds of the other copies goes on holding (`Keeps.wired`), and each such step
only has to say why its own copy is wired.
-/

namespace Wayfarer

variable {c : Setting} {due due' : EdgeId → Prop} {dead : NodeId → Prop}

theorem Setting.WasEdge.committed {e : EdgeId} {a : Anchor} {r : EdgeRecord}
    (h : c.WasEdge e a r) : c.Committed (.edge e) := ⟨a, h.1, h.2.1⟩

theorem Setting.WasNode.committed {n : NodeId} {a : Anchor} {r : NodeRecord}
    (h : c.WasNode n a r) : c.Committed (.node n) := ⟨a, h.1, h.2.1⟩

/-- An edge that was listed when a node was committed was itself committed. -/
theorem Lineage.committed_of_listed (hl : Lineage c) {n : NodeId} {a : Anchor} {r : NodeRecord}
    {p : Port} {e : EdgeId} (hn : c.WasNode n a r) (he : e ∈ r.edgesAt p) :
    c.Committed (.edge e) := by
  obtain ⟨b, s, hb, _⟩ := hl.listed hn he
  exact hb.committed

/-! ## Copy by copy -/

section Terms

variable (c : Setting) (due : EdgeId → Prop) (dead : NodeId → Prop) (d : Draft)

/-- Why the copy of a node that was made at a version may list an edge at a
port: the node listed it then, or the edge is new and ends there, or it was new
and the node is dead. -/
def Listable (n : NodeId) (v : UInt64) (p : Port) (e : EdgeId) : Prop :=
  (∃ b s, c.WasNode n b s ∧ b.version = v ∧ e ∈ s.edgesAt p) ∨
    (∃ b s, EdgeIn d.copy? e b s ∧ b.version = 0 ∧ s.endAt p = n) ∨
    (dead n ∧ d.copy? (.edge e) = none ∧ c.stored.get? (.edge e) = none)

/-- What `Wired` says of the copy of a node. -/
structure NodeWired (n : NodeId) (a : Anchor) (r : NodeRecord) : Prop where
  nodup : ∀ p, (r.edgesAt p).Nodup
  lost : ∀ {b s p e}, c.WasNode n b s → b.version = a.version → e ∈ s.edgesAt p →
    e ∈ r.edgesAt p ∨ Gone c d e ∨ due e
  listed : ∀ {p e}, e ∈ r.edgesAt p → Listable c dead d n a.version p e
  current : ∀ {p e}, e ∈ r.edgesAt p → ¬ dead n → d.removed? (.edge e) = none

/-- What `Wired` says of the copy of an edge. -/
structure EdgeWired (e : EdgeId) (a : Anchor) (r : EdgeRecord) : Prop where
  alike : ∀ {b s}, c.WasEdge e b s → r.Alike s
  attached : a.version = 0 → ¬ due e → Attached d e r

/-- What `Wired` says of the copy of an object. -/
structure CopyWired (id : ObjectId) (a : Anchor) : Prop where
  fits : a.Fits
  typed : ∀ {b}, c.past b → b.id = id → a.type = b.type
  node : ∀ {n r}, id = .node n → a.node? = some r → NodeWired c due dead d n a r
  edge : ∀ {e r}, id = .edge e → a.edge? = some r → EdgeWired c due d e a r

end Terms

section Copies

variable {d d' : Draft} {n : NodeId} {e : EdgeId} {a : Anchor} {id : ObjectId}

theorem Wired.node {r : NodeRecord} (h : Wired c due dead d) (ha : NodeIn d.copy? n a r) :
    NodeWired c due dead d n a r :=
  ⟨h.nodup ha, h.lost ha, h.listed ha, h.current ha⟩

theorem Wired.edge {r : EdgeRecord} (h : Wired c due dead d) (ha : EdgeIn d.copy? e a r) :
    EdgeWired c due d e a r :=
  ⟨h.alike ha, h.attached ha⟩

/-- A draft is wired if each of its copies is, and what it removes is in
order. -/
theorem Wired.of_copies (hcopy : ∀ {id a}, d.copy? id = some a → CopyWired c due dead d id a)
    (hcut : ∀ {e v b s}, d.removed? (.edge e) = some v → c.WasEdge e b s →
      ∀ p, Freed c dead d (s.endAt p))
    (hcleared : ∀ {n v b s}, d.removed? (.node n) = some v → c.WasNode n b s → b.version = v →
      b.type ≠ rootType ∧ ∀ p, ∀ e ∈ s.edgesAt p, Gone c d e)
    (hpaired : ∀ {e v b s t}, d.removed? (.edge e) = some v → c.WasEdge e b s → s.twin = some t →
      Gone c d t ∨ due t) : Wired c due dead d where
  fits ha := (hcopy ha).fits
  alike ha := ((hcopy ha.1).edge rfl ha.2).alike
  typed ha := (hcopy ha).typed
  nodup ha := ((hcopy ha.1).node rfl ha.2).nodup
  lost ha := ((hcopy ha.1).node rfl ha.2).lost
  listed ha := ((hcopy ha.1).node rfl ha.2).listed
  current ha := ((hcopy ha.1).node rfl ha.2).current
  attached ha := ((hcopy ha.1).edge rfl ha.2).attached
  cut := hcut
  cleared := hcleared
  paired := hpaired

/-- A copy of a committed anchor is wired, as long as no edge that it lists was
removed. -/
theorem CopyWired.of_past (hc : Chronicle c.past c.stored) (hl : Lineage c) (hp : c.past a)
    (hid : a.id = id) (hcur : ∀ {n r p e}, c.WasNode n a r → id = .node n → e ∈ r.edgesAt p →
      ¬ dead n → d.removed? (.edge e) = none) : CopyWired c due dead d id a where
  fits := hl.fits hp
  typed hb hbid := hl.typed hp hb (hid.trans hbid.symm)
  node {n r} hn hr := by
    have hwas : c.WasNode n a r := ⟨hp, hid.trans hn, hr⟩
    refine ⟨hl.nodup hwas, fun {b s p e} hb hver he => .inl ?_,
      fun he => .inl ⟨a, r, hwas, rfl, he⟩, fun he => hcur hwas hn he⟩
    have hba : b = a := hc.unique hb.1 hp (hb.2.1.trans hwas.2.1.symm) hver
    subst hba
    have hsr : s = r := by simpa [hr] using hb.2.2.symm
    exact hsr ▸ he
  edge he hr := ⟨hl.alike ⟨hp, hid.trans he, hr⟩, fun hz => absurd hz (hc.positive hp)⟩

end Copies

theorem EdgeRecord.Alike.refl (r : EdgeRecord) : r.Alike r := ⟨rfl, fun _ => rfl⟩

theorem EdgeRecord.Alike.symm {r s : EdgeRecord} (h : r.Alike s) : s.Alike r :=
  ⟨h.1.symm, fun p => (h.2 p).symm⟩

theorem EdgeRecord.Alike.trans {r s t : EdgeRecord} (h : r.Alike s) (h' : s.Alike t) : r.Alike t :=
  ⟨h.1.trans h'.1, fun p => (h.2 p).trans (h'.2 p)⟩

theorem EdgeRecord.Alike.mirrors {r s s' : EdgeRecord} {e : EdgeId} (h : s'.Alike s)
    (hm : s.Mirrors r e) : s'.Mirrors r e :=
  ⟨h.1.trans hm.1, fun p => (h.2 p).trans (hm.2 p)⟩

theorem Attached.of_alike {d : Draft} {e : EdgeId} {r s : EdgeRecord} (h : Attached d e r)
    (ha : s.Alike r) : Attached d e s := by
  refine ⟨fun p => ?_, fun t ht => ?_⟩
  · rw [ha.2 p]
    exact h.1 p
  · obtain ⟨b, u, hb, hz, htw, hends⟩ := h.2 t (ha.1 ▸ ht)
    exact ⟨b, u, hb, hz, htw, fun p => (hends p).trans (ha.2 p.flip).symm⟩

/-! ## Steps that remove nothing -/

/-- A step that removes nothing. The copy of a node stays or is changed, and
drops only edges that are due then; new edges stay new and keep their ends and
twins. What the request does not hold and the vault does not either stays away,
unless it is created while no node is dead. -/
structure Keeps (c : Setting) (due due' : EdgeId → Prop) (dead : NodeId → Prop) (d d' : Draft) :
    Prop where
  stillDue : ∀ {e}, due e → due' e
  removed : ∀ id, d'.removed? id = d.removed? id
  node : ∀ {n a}, d.copy? (.node n) = some a → d'.copy? (.node n) = some a ∨
    ∃ b, d'.copy? (.node n) = some b ∧ b.dirty = true ∧ ∀ r, a.node? = some r →
      ∃ s, b.node? = some s ∧ ∀ p, ∀ e ∈ r.edgesAt p, e ∈ s.edgesAt p ∨ due' e
  edge : ∀ {e a r}, EdgeIn d.copy? e a r → a.version = 0 →
    ∃ b s, EdgeIn d'.copy? e b s ∧ b.version = 0 ∧ s.Alike r
  missing : ∀ {id}, d.copy? id = none → c.stored.get? id = none →
    d'.copy? id = none ∨ (¬ c.Committed id ∧ ∀ n, ¬ dead n)

namespace Keeps

variable {d d' : Draft} {n : NodeId} {e : EdgeId} {a : Anchor}

theorem gone (k : Keeps c due due' dead d d') (h : Gone c d e) : Gone c d' e := by
  unfold Gone at h ⊢
  rwa [k.removed]

theorem freed (k : Keeps c due due' dead d d') (hn : c.Committed (.node n))
    (h : Freed c dead d n) : Freed c dead d' n := by
  rcases h with ⟨v, hv⟩ | ⟨b, hb, hfree⟩ | ⟨hno, hst⟩
  · exact .inl ⟨v, (k.removed _).trans hv⟩
  · rcases k.node hb with hb | ⟨x, hx, hdirty, _⟩
    · exact .inr (.inl ⟨b, hb, hfree⟩)
    · exact .inr (.inl ⟨x, hx, .inl hdirty⟩)
  · exact .inr (.inr ⟨(k.missing hno hst).resolve_right fun hnew => hnew.1 hn, hst⟩)

theorem listable (k : Keeps c due due' dead d d') {v : UInt64} {p : Port}
    (h : Listable c dead d n v p e) : Listable c dead d' n v p e := by
  rcases h with hbase | ⟨b, s, hb, hz, hend⟩ | ⟨hdead, hno, hst⟩
  · exact .inl hbase
  · obtain ⟨b', s', hb', hz', halike⟩ := k.edge hb hz
    exact .inr (.inl ⟨b', s', hb', hz', (halike.2 p).trans hend⟩)
  · exact .inr (.inr ⟨hdead, (k.missing hno hst).resolve_right fun hnew => hnew.2 n hdead, hst⟩)

theorem attached (k : Keeps c due due' dead d d') {r : EdgeRecord} (hnot : ¬ due' e)
    (h : Attached d e r) : Attached d' e r := by
  refine ⟨fun p => ?_, fun t ht => ?_⟩
  · obtain ⟨b, s, ⟨hb, hs⟩, hdirty, he⟩ := h.1 p
    rcases k.node hb with hb | ⟨x, hx, hxd, hlists⟩
    · exact ⟨b, s, ⟨hb, hs⟩, hdirty, he⟩
    · obtain ⟨u, hu, hsub⟩ := hlists s hs
      exact ⟨x, u, ⟨hx, hu⟩, hxd, (hsub p e he).resolve_right hnot⟩
  · obtain ⟨b, s, hb, hz, hmir⟩ := h.2 t ht
    obtain ⟨b', s', hb', hz', halike⟩ := k.edge hb hz
    exact ⟨b', s', hb', hz', halike.mirrors hmir⟩

theorem nodeWired (k : Keeps c due due' dead d d') {r : NodeRecord}
    (h : NodeWired c due dead d n a r) : NodeWired c due' dead d' n a r where
  nodup := h.nodup
  lost hb hver he := (h.lost hb hver he).imp id (Or.imp k.gone k.stillDue)
  listed he := k.listable (h.listed he)
  current he hlive := (k.removed _).trans (h.current he hlive)

theorem edgeWired (k : Keeps c due due' dead d d') {r : EdgeRecord}
    (h : EdgeWired c due d e a r) : EdgeWired c due' d' e a r where
  alike := h.alike
  attached hz hnot := k.attached hnot (h.attached hz fun hdue => hnot (k.stillDue hdue))

/-- After a step that removes nothing only the copies that it made have to be
looked at. -/
theorem wired (k : Keeps c due due' dead d d') (hl : Lineage c) (h : Wired c due dead d)
    (hcopy : ∀ {id a}, d'.copy? id = some a →
      d.copy? id = some a ∨ CopyWired c due' dead d' id a) : Wired c due' dead d' := by
  refine .of_copies (fun {id a} ha => ?_) (fun hr hb p => ?_) (fun hr hb hver => ?_)
    fun hr hb ht => ?_
  · rcases hcopy ha with hold | hnew
    · exact {
        fits := h.fits hold
        typed := h.typed hold
        node := by
          rintro n r rfl hr
          exact k.nodeWired (h.node ⟨hold, hr⟩)
        edge := by
          rintro e r rfl hr
          exact k.edgeWired (h.edge ⟨hold, hr⟩) }
    · exact hnew
  · exact k.freed (hl.ends hb p) (h.cut ((k.removed _).symm.trans hr) hb p)
  · obtain ⟨hty, hg⟩ := h.cleared ((k.removed _).symm.trans hr) hb hver
    exact ⟨hty, fun p e he => k.gone (hg p e he)⟩
  · exact (h.paired ((k.removed _).symm.trans hr) hb ht).imp k.gone k.stillDue

/-- The same for a step that makes or changes one copy. -/
theorem put (k : Keeps c due due' dead d d') (hl : Lineage c) (h : Wired c due dead d)
    {id : ObjectId} {b : Anchor} (hf : ∀ j, d'.copy? j = if j = id then some b else d.copy? j)
    (hb : CopyWired c due' dead d' id b) : Wired c due' dead d' := by
  refine k.wired hl h fun {j x} hx => ?_
  rw [hf] at hx
  split at hx
  · rename_i hj
    subst hj
    cases hx
    exact .inr hb
  · exact .inl hx

end Keeps

section Editing

variable {d d' : Desk Vault}

namespace Wired

/-- What a read adds to a draft are stored anchors, which are committed and
clean. -/
theorem loaded (hc : Chronicle c.past c.stored) (hl : Lineage c) (hs : d.stored = c.stored)
    (h : Wired c due dead d.draft) (hd : d.Loaded d') : Wired c due dead d'.draft := by
  have keeps : Keeps c due due dead d.draft d'.draft := {
    stillDue := id
    removed := fun id => by simp only [Draft.removed?, hd.tombstones]
    node := fun ha => .inl (hd.kept ha)
    edge := fun ha hz => ⟨_, _, ⟨hd.kept ha.1, ha.2⟩, hz, .refl _⟩
    missing := fun {id} hno hst => by
      rcases hd.volatile id with hv | ⟨_, _, a, ha, _⟩
      · exact .inl (hv.trans hno)
      · rw [hs, hst] at ha
        cases ha }
  refine keeps.wired hl h fun {id a} ha => ?_
  rcases hd.volatile id with hv | ⟨hno, ht, b, hb, hv⟩
  · exact .inl (hv.symm.trans ha)
  · cases hv.symm.trans ha
    rw [hs] at hb
    obtain ⟨hp, hid⟩ := hc.stored_past hb
    refine .inr (.of_past hc hl hp hid fun {n r p e} hwas hn he _ => ?_)
    subst hn
    rw [keeps.removed]
    cases hx : d.draft.removed? (.edge e) with
    | none => rfl
    | some v =>
      -- the node would have been freed of a removed edge, but it was only loaded just now
      obtain ⟨x, s, hwasx, hend⟩ := hl.listed hwas he
      have hfree := h.cut hx hwasx p
      rw [hend] at hfree
      rcases hfree with ⟨v, hv⟩ | ⟨y, hy, _⟩ | ⟨_, hst⟩
      · cases ht.symm.trans hv
      · cases hno.symm.trans hy
      · cases hb.symm.trans hst

/-- Changing what a node lists. Edges that it drops have to be due; edges that
it adds have to be new and end there. -/
theorem rewire (hl : Lineage c) (hd : Dated c d.draft) (h : Wired c due dead d.draft) {n : NodeId}
    {a b : Anchor} {r r' : NodeRecord} (ha : NodeIn d.draft.copy? n a r) (hb : b.node? = some r')
    (hid : b.id = a.id) (hv : b.version = a.version) (hty : r'.type = r.type)
    (hdirty : b.dirty = true) (hnodup : ∀ p, (r'.edgesAt p).Nodup)
    (hlost : ∀ p, ∀ e ∈ r.edgesAt p, e ∈ r'.edgesAt p ∨ due e)
    (hnew : ∀ p, ∀ e ∈ r'.edgesAt p, e ∈ r.edgesAt p ∨
      ∃ x s, EdgeIn d.draft.copy? e x s ∧ x.version = 0 ∧ s.endAt p = n) :
    Wired c due dead (d.keep (.node n) b).draft := by
  have hf : ∀ j, (d.keep (.node n) b).draft.copy? j =
      if j = .node n then some b else d.draft.copy? j := fun j => Desk.keep_copy? ..
  -- nothing is removed, and only the copy of `n` is another one
  have keeps : Keeps c due due dead d.draft (d.keep (.node n) b).draft := {
    stillDue := id
    removed := fun _ => rfl
    node := fun {m x} hx => by
      by_cases hm : m = n
      · subst hm
        cases ha.1.symm.trans hx
        refine .inr ⟨b, by rw [hf, if_pos rfl], hdirty, fun s hs => ⟨r', hb, ?_⟩⟩
        cases ha.2.symm.trans hs
        exact hlost
      · exact .inl (by rw [hf, if_neg (by simpa using hm), hx])
    edge := fun hx hz => ⟨_, _, (edgeIn_congr_node hf).2 hx, hz, .refl _⟩
    missing := fun {id} hno _ => .inl <| by
      rw [hf, if_neg]
      · exact hno
      · rintro rfl
        cases hno.symm.trans ha.1 }
  have hown := hd.own ha.1
  have hwired := h.node ha
  refine keeps.put hl h hf {
    fits := ⟨fun _ => ⟨r', hb⟩, fun he => by cases hown.symm.trans (hid.symm.trans he)⟩
    typed := fun hy hyid => by
      rw [Anchor.type_of_node? hb, hty, ← Anchor.type_of_node? ha.2]
      exact h.typed ha.1 hy hyid
    node := ?_
    edge := fun he => by cases he }
  -- what the new copy owes: its edges are those of the old one, due, or new and
  -- attached here
  rintro m s hm hs
  cases hm
  cases hb.symm.trans hs
  refine ⟨hnodup, fun {x u p e} hx hver he => ?_, fun {p e} he => ?_, fun {p e} he hlive => ?_⟩
  · rcases hwired.lost hx (hver.trans hv) he with hin | hgone | hdue
    · exact (hlost p e hin).imp_right .inr
    · exact .inr (.inl hgone)
    · exact .inr (.inr hdue)
  · rw [hv]
    rcases hnew p e he with hin | ⟨x, u, hx, hz, hend⟩
    · exact keeps.listable (hwired.listed hin)
    · exact .inr (.inl ⟨x, u, (edgeIn_congr_node hf).2 hx, hz, hend⟩)
  · rcases hnew p e he with hin | ⟨x, u, hx, _, _⟩
    · exact hwired.current hin hlive
    · exact hd.keyed.removed?_of_copy? hx.1

/-- Changing an edge's fields or access. -/
theorem editEdge (hl : Lineage c) (hd : Dated c d.draft) (h : Wired c due dead d.draft) {k : EdgeId}
    {a b : Anchor} {r r' : EdgeRecord} (ha : EdgeIn d.draft.copy? k a r) (hb : b.edge? = some r')
    (hid : b.id = a.id) (hv : b.version = a.version) (hty : r'.type = r.type)
    (halike : r'.Alike r) : Wired c due dead (d.keep (.edge k) b).draft := by
  have hf : ∀ j, (d.keep (.edge k) b).draft.copy? j =
      if j = .edge k then some b else d.draft.copy? j := fun j => Desk.keep_copy? ..
  -- the new copy is alike, so that whoever refers to the edge still finds what is
  -- expected
  have keeps : Keeps c due due dead d.draft (d.keep (.edge k) b).draft := {
    stillDue := id
    removed := fun _ => rfl
    node := fun hx => .inl (by rw [hf, if_neg (by simp), hx])
    edge := fun {e x s} hx hz => by
      by_cases he : e = k
      · subst he
        obtain ⟨rfl, rfl⟩ := ha.unique hx
        exact ⟨b, r', ⟨by rw [hf, if_pos rfl], hb⟩, hv.trans hz, halike⟩
      · exact ⟨x, s, hx.keep hf he, hz, .refl s⟩
    missing := fun {id} hno _ => .inl <| by
      rw [hf, if_neg]
      · exact hno
      · rintro rfl
        cases hno.symm.trans ha.1 }
  have hown := hd.own ha.1
  refine keeps.put hl h hf {
    fits := ⟨fun hn => (by cases hown.symm.trans (hid.symm.trans hn)), fun _ => ⟨r', hb⟩⟩
    typed := fun hy hyid => by
      rw [Anchor.type_of_edge? hb, hty, ← Anchor.type_of_edge? ha.2]
      exact h.typed ha.1 hy hyid
    node := fun hn => by cases hn
    edge := ?_ }
  rintro e s he hs
  cases he
  cases hb.symm.trans hs
  exact {
    alike := fun hy => halike.trans (h.alike ha hy)
    attached := fun hz hnot =>
      (keeps.attached hnot (h.attached ha (hv.symm.trans hz) hnot)).of_alike halike }

end Wired

end Editing

/-! ## Adding an object -/

theorem Draft.copy?_of_unmentioned {d : Draft} {id : ObjectId} (h : ¬ d.Mentions id) :
    d.copy? id = none := by
  cases hx : d.copy? id with
  | none => rfl
  | some a => exact absurd (.inl ⟨a, hx⟩) h

theorem Draft.removed?_of_unmentioned {d : Draft} {id : ObjectId} (h : ¬ d.Mentions id) :
    d.removed? id = none := by
  cases hx : d.removed? id with
  | none => rfl
  | some v => exact absurd (.inr ⟨v, hx⟩) h

theorem Unseen.gone {d : Draft} {e : EdgeId} (h : Unseen c d e) : Gone c d e :=
  h.imp id (·.2)

theorem Unseen.copy?_eq_none {d : Draft} (hd : Dated c d) {e : EdgeId} (h : Unseen c d e) :
    d.copy? (.edge e) = none := by
  rcases h with ⟨v, hv⟩ | ⟨hcopy, _⟩
  · exact hd.apart hv
  · exact hcopy

theorem Unseen.not_edgeIn {d : Draft} (hd : Dated c d) {e : EdgeId} (h : Unseen c d e) {a : Anchor}
    {r : EdgeRecord} : ¬ EdgeIn d.copy? e a r := by
  rintro ⟨ha, _⟩
  rw [h.copy?_eq_none hd] at ha
  cases ha

theorem Unseen.lapsed {d : Draft} (hd : Dated c d) {e : EdgeId} (h : Unseen c d e) :
    Lapsed c d e := by
  refine ⟨h.gone, fun a ha => ?_⟩
  rw [h.copy?_eq_none hd] at ha
  cases ha

/-- Adding a new object removes nothing. -/
theorem Keeps.stage {d : Draft} {a : Anchor} (hnew : ¬ c.Committed a.id) (hm : ¬ d.Mentions a.id)
    (hdue : ∀ e, due e → due' e) : Keeps c due due' (fun _ => False) d (d.stage a) := by
  have hkept : ∀ {id x}, d.copy? id = some x → (d.stage a).copy? id = some x := by
    intro id x hx
    rw [Draft.stage_copy?, if_neg]
    · exact hx
    · rintro rfl
      exact hm (.inl ⟨x, hx⟩)
  refine {
    stillDue := fun {e} => hdue e
    removed := fun id => ?_
    node := fun hx => .inl (hkept hx)
    edge := fun hx hz => ⟨_, _, ⟨hkept hx.1, hx.2⟩, hz, .refl _⟩
    missing := fun {id} hno _ => ?_ }
  · rw [Draft.stage_removed?]
    split
    · rename_i hid
      rw [hid, Draft.removed?_of_unmentioned hm]
    · rfl
  · by_cases hid : id = a.id
    · exact .inr ⟨hid ▸ hnew, fun _ hf => hf⟩
    · rw [Draft.stage_copy?, if_neg hid]
      exact .inl hno

namespace Wired

/-- Adding a new node without edges. -/
theorem stageNode (hl : Lineage c) {d : Draft} (h : Wired c due (fun _ => False) d) {n : NodeId}
    {a : Anchor} {r : NodeRecord} (hid : a.id = .node n) (hr : a.node? = some r)
    (hnone : ∀ p, r.edgesAt p = []) (hnew : ¬ c.Committed (.node n))
    (hm : ¬ d.Mentions (.node n)) : Wired c due (fun _ => False) (d.stage a) := by
  rw [← hid] at hnew hm
  refine (Keeps.stage hnew hm fun _ he => he).put hl h (fun j => Draft.stage_copy? d a j) {
    fits := ⟨fun _ => ⟨r, hr⟩, fun he => by cases hid.symm.trans he⟩
    typed := fun hy hyid => absurd ⟨_, hy, hyid⟩ hnew
    node := ?_
    edge := fun he => by cases hid.symm.trans he }
  intro m s hn hs
  cases hr.symm.trans hs
  have hempty : ∀ {p e}, ¬ e ∈ r.edgesAt p := fun {p e} he => by
    rw [hnone p] at he
    cases he
  exact {
    nodup := fun p => hnone p ▸ List.nodup_nil
    lost := fun hy => absurd (hn ▸ hy.committed) hnew
    listed := fun he => absurd he hempty
    current := fun he => absurd he hempty }

/-- Adding a new edge, which is due until it is attached. -/
theorem stageEdge (hl : Lineage c) {d : Draft} (h : Wired c due (fun _ => False) d) {k : EdgeId}
    {a : Anchor} {r : EdgeRecord} (hid : a.id = .edge k) (hr : a.edge? = some r)
    (hnew : ¬ c.Committed (.edge k)) (hm : ¬ d.Mentions (.edge k))
    (hdue : ∀ e, due e → due' e) (hk : due' k) :
    Wired c due' (fun _ => False) (d.stage a) := by
  rw [← hid] at hnew hm
  refine (Keeps.stage hnew hm hdue).put hl h (fun j => Draft.stage_copy? d a j) {
    fits := ⟨fun hn => (by cases hid.symm.trans hn), fun _ => ⟨r, hr⟩⟩
    typed := fun hy hyid => absurd ⟨_, hy, hyid⟩ hnew
    node := fun hn => by cases hid.symm.trans hn
    edge := fun he _ => ?_ }
  cases hid.symm.trans he
  exact ⟨fun hy => absurd (he ▸ hy.committed) hnew, fun _ hnot => absurd hk hnot⟩

end Wired

/-! ## Removing an object -/

section Removing

variable {d : Desk Vault} {id : ObjectId} {a : Anchor}

theorem Desk.removed?_of_bury {j : ObjectId} {v : UInt64}
    (h : (d.bury id a).draft.removed? j = some v) :
    (j = id ∧ a.version ≠ 0 ∧ v = a.version) ∨ d.draft.removed? j = some v := by
  rw [bury_removed?] at h
  split at h
  · rename_i hj
    cases h
    exact .inl ⟨hj.1, hj.2, rfl⟩
  · exact .inr h

theorem Gone.bury {e : EdgeId} (h : Gone c d.draft e) : Gone c (d.bury id a).draft e := by
  rcases h with ⟨v, hv⟩ | hst
  · refine .inl ?_
    rw [Desk.bury_removed?]
    split
    · exact ⟨_, rfl⟩
    · exact ⟨v, hv⟩
  · exact .inr hst

theorem Gone.of_bury (hc : Chronicle c.past c.stored) (hd : Dated c d.draft) {k : EdgeId}
    (ha : d.draft.copy? (.edge k) = some a) : Gone c (d.bury (.edge k) a).draft k := by
  by_cases hz : a.version = 0
  · exact .inr (hc.stored_eq_none (hd.born ha hz).2.1)
  · refine .inl ⟨a.version, ?_⟩
    rw [Desk.bury_removed?, if_pos ⟨rfl, hz⟩]

theorem Freed.bury {n : NodeId} (h : Freed c dead d.draft n) (hne : .node n ≠ id) :
    Freed c dead (d.bury id a).draft n := by
  unfold Freed at h ⊢
  rwa [Desk.bury_removed?, if_neg fun hn => hne hn.1, Desk.bury_copy?, if_neg hne]

namespace Wired

/-- Nodes that list a removed edge are dead, so the others list what they
may. -/
theorem listable_bury (hc : Chronicle c.past c.stored) (hd : Dated c d.draft)
    (h : Wired c due dead d.draft) {k : EdgeId} {r : EdgeRecord} (ha : EdgeIn d.draft.copy? k a r)
    (hout : ∀ {n b s p}, NodeIn d.draft.copy? n b s → k ∈ s.edgesAt p → dead n)
    {n : NodeId} {b : Anchor} {s : NodeRecord} {p : Port} {e : EdgeId}
    (hb : NodeIn d.draft.copy? n b s) (he : e ∈ s.edgesAt p) :
    Listable c dead (d.bury (.edge k) a).draft n b.version p e := by
  rcases h.listed hb he with hbase | ⟨y, t, hy, hz, hend⟩ | ⟨hdead, hno, hst⟩
  · exact .inl hbase
  · by_cases hek : e = k
    · -- a dead node may go on listing a new edge that was removed
      subst hek
      obtain ⟨rfl, rfl⟩ := ha.unique hy
      refine .inr (.inr ⟨hout hb he, ?_, hc.stored_eq_none (hd.born ha.1 hz).2.1⟩)
      rw [Desk.bury_copy?, if_pos rfl]
    · exact .inr (.inl ⟨y, t, hy.keep (fun j => Desk.bury_copy? ..) hek, hz, hend⟩)
  · refine .inr (.inr ⟨hdead, ?_, hst⟩)
    rw [Desk.bury_copy?]
    split
    · rfl
    · exact hno

/-- A new edge that stays is attached as before, since its twin stays too. -/
theorem attached_bury (h : Wired c due dead d.draft) {k : EdgeId} {r : EdgeRecord}
    (ha : EdgeIn d.draft.copy? k a r)
    (htwin : ∀ t, r.twin = some t → t = k ∨ due' t ∨ Lapsed c d.draft t)
    (hdue : ∀ e, due e → e = k ∨ due' e) {e : EdgeId} {b : Anchor} {s : EdgeRecord}
    (hb : EdgeIn d.draft.copy? e b s) (hek : e ≠ k) (hz : b.version = 0) (hnot : ¬ due' e) :
    Attached (d.bury (.edge k) a).draft e s := by
  have hf : ∀ j, (d.bury (.edge k) a).draft.copy? j =
      if j = .edge k then none else d.draft.copy? j := fun j => Desk.bury_copy? ..
  obtain ⟨hends, htw⟩ := h.attached hb hz fun he => (hdue e he).elim hek hnot
  refine ⟨fun p => ?_, fun t ht => ?_⟩
  · obtain ⟨y, u, hy, hrest⟩ := hends p
    exact ⟨y, u, (nodeIn_congr_edge hf).2 hy, hrest⟩
  · obtain ⟨y, u, hy, hyz, hmir⟩ := htw t ht
    refine ⟨y, u, hy.keep hf ?_, hyz, hmir⟩
    rintro rfl
    obtain ⟨rfl, rfl⟩ := ha.unique hy
    rcases htwin e hmir.1 with he | he | he
    · exact hek he
    · exact hnot he
    · exact he.2 b hb.1 hz

/-- Removing an edge that no node lists any more, except nodes that are dead.
Its twin has to be due or lapsed. -/
theorem buryEdge (hc : Chronicle c.past c.stored) (hd : Dated c d.draft)
    (h : Wired c due dead d.draft) {k : EdgeId} {r : EdgeRecord}
    (ha : EdgeIn d.draft.copy? k a r)
    (hfree : a.version ≠ 0 → ∀ p, Freed c dead d.draft (r.endAt p))
    (hout : ∀ {n b s p}, NodeIn d.draft.copy? n b s → k ∈ s.edgesAt p → dead n)
    (htwin : ∀ t, r.twin = some t → t = k ∨ due' t ∨ Lapsed c d.draft t)
    (hdue : ∀ e, due e → e = k ∨ due' e) :
    Wired c due' dead (d.bury (.edge k) a).draft := by
  have hself : Gone c (d.bury (.edge k) a).draft k := .of_bury hc hd ha.1
  have hdue' : ∀ {e}, due e → Gone c (d.bury (.edge k) a).draft e ∨ due' e := by
    intro e he
    rcases hdue e he with rfl | he
    · exact .inl hself
    · exact .inr he
  -- the other copies, then the tombstones: only that of `k` itself is new among them
  refine .of_copies (fun {id x} hx => ?_) (fun {e v y t} hv hy p => ?_)
    (fun {m v y t} hv hy hver => ?_) fun {e v y t tw} hv hy ht => ?_
  · rw [Desk.bury_copy?] at hx
    split at hx
    · cases hx
    rename_i hne
    refine { fits := h.fits hx, typed := h.typed hx, node := ?_, edge := ?_ }
    · rintro m s rfl hs
      have hm : NodeIn d.draft.copy? m x s := ⟨hx, hs⟩
      refine ⟨h.nodup hm, fun hy hver he => ?_, h.listable_bury hc hd ha hout hm,
        fun {p e} he hlive => ?_⟩
      · exact (h.lost hm hy hver he).imp_right (Or.elim · (.inl ·.bury) hdue')
      · rw [Desk.bury_removed?, if_neg]
        · exact h.current hm he hlive
        · rintro ⟨hek, _⟩
          cases hek
          exact hlive (hout hm he)
    · rintro e s rfl hs
      exact ⟨h.alike ⟨hx, hs⟩, h.attached_bury ha htwin hdue ⟨hx, hs⟩ (by simpa using hne)⟩
  · rcases Desk.removed?_of_bury hv with ⟨hek, hz, _⟩ | hv
    · cases hek
      rw [← (h.alike ha hy).2 p]
      exact (hfree hz p).bury (by simp)
    · exact (h.cut hv hy p).bury (by simp)
  · rcases Desk.removed?_of_bury hv with ⟨hek, _⟩ | hv
    · cases hek
    · obtain ⟨hty, hg⟩ := h.cleared hv hy hver
      exact ⟨hty, fun p e he => (hg p e he).bury⟩
  · rcases Desk.removed?_of_bury hv with ⟨hek, _⟩ | hv
    · cases hek
      rcases htwin tw ((h.alike ha hy).1.trans ht) with rfl | hdt | hlapsed
      · exact .inl hself
      · exact .inr hdt
      · exact .inl hlapsed.1.bury
    · exact (h.paired hv hy ht).elim (.inl ·.bury) hdue'

/-- Removing a node all of whose edges are out of sight. -/
theorem buryNode (hl : Lineage c) (hd : Dated c d.draft)
    (h : Wired c (fun _ => False) dead d.draft) {n : NodeId} {r : NodeRecord}
    (ha : NodeIn d.draft.copy? n a r) (hty : a.type ≠ rootType)
    (hun : ∀ p, ∀ e ∈ r.edgesAt p, Unseen c d.draft e) :
    Wired c (fun _ => False) dead (d.bury (.node n) a).draft := by
  have hf : ∀ j, (d.bury (.node n) a).draft.copy? j =
      if j = .node n then none else d.draft.copy? j := fun j => Desk.bury_copy? ..
  have hedge : ∀ e, (d.bury (.node n) a).draft.removed? (.edge e) = d.draft.removed? (.edge e) := by
    intro e
    rw [Desk.bury_removed?, if_neg (by simp)]
  have hattached : ∀ {e b s}, EdgeIn d.draft.copy? e b s → b.version = 0 →
      Attached (d.bury (.node n) a).draft e s := by
    intro e b s hb hz
    obtain ⟨hends, htwin⟩ := h.attached hb hz id
    refine ⟨fun p => ?_, fun t ht => ?_⟩
    · obtain ⟨y, u, hy, hyd, hin⟩ := hends p
      refine ⟨y, u, hy.keep hf ?_, hyd, hin⟩
      -- a new edge that is still there is not attached to the node removed
      intro hm
      rw [hm] at hy
      obtain ⟨rfl, rfl⟩ := ha.unique hy
      exact (hun p e hin).not_edgeIn hd hb
    · obtain ⟨y, u, hy, hrest⟩ := htwin t ht
      exact ⟨y, u, (edgeIn_congr_node hf).2 hy, hrest⟩
  refine .of_copies (fun {id x} hx => ?_) (fun {e v y t} hv hy p => ?_)
    (fun {m v y t} hv hy hver => ?_) fun {e v y t tw} hv hy ht => ?_
  · rw [hf] at hx
    split at hx
    · cases hx
    refine { fits := h.fits hx, typed := h.typed hx, node := ?_, edge := ?_ }
    · rintro m s rfl hs
      have hm : NodeIn d.draft.copy? m x s := ⟨hx, hs⟩
      refine ⟨h.nodup hm, fun hy hver he => ?_, fun {p e} he => ?_, fun he hlive => ?_⟩
      · exact (h.lost hm hy hver he).imp_right (Or.imp_left Gone.bury)
      · rcases h.listed hm he with hbase | ⟨y, t, hy, hrest⟩ | ⟨hdead, hno, hst⟩
        · exact .inl hbase
        · exact .inr (.inl ⟨y, t, (edgeIn_congr_node hf).2 hy, hrest⟩)
        · exact .inr (.inr ⟨hdead, by rw [hf, if_neg (by simp), hno], hst⟩)
      · exact (hedge _).trans (h.current hm he hlive)
    · rintro e s rfl hs
      exact ⟨h.alike ⟨hx, hs⟩, fun hz _ => hattached ⟨hx, hs⟩ hz⟩
  · rw [hedge] at hv
    by_cases hm : t.endAt p = n
    · have hz : a.version ≠ 0 := fun hz => (hd.born ha.1 hz).2.1 (hm ▸ hl.ends hy p)
      refine .inl ⟨a.version, ?_⟩
      rw [Desk.bury_removed?, if_pos ⟨by rw [hm], hz⟩]
    · exact (h.cut hv hy p).bury (by simpa using hm)
  · rcases Desk.removed?_of_bury hv with ⟨hm, _, rfl⟩ | hv
    · cases hm
      refine ⟨h.typed ha.1 hy.1 hy.2.1 ▸ hty, fun p e he => Gone.bury ?_⟩
      rcases h.lost ha hy hver he with hin | hg | hdue
      · exact (hun p e hin).gone
      · exact hg
      · exact hdue.elim
    · obtain ⟨hty', hg⟩ := h.cleared hv hy hver
      exact ⟨hty', fun p e he => (hg p e he).bury⟩
  · rw [hedge] at hv
    exact (h.paired hv hy ht).imp_left Gone.bury

end Wired

end Removing

/-! ## Edges that are due and nodes that are dead -/

namespace Wired

/-- An edge is no longer due once it is out of sight, or new and attached. -/
theorem undue (hc : Chronicle c.past c.stored) {d : Draft} (hd : Dated c d)
    (h : Wired c due dead d) (hdue : ∀ e, due e → due' e ∨ Unseen c d e ∨
      ∃ a r, EdgeIn d.copy? e a r ∧ a.version = 0 ∧ Attached d e r) : Wired c due' dead d := by
  have hgone : ∀ {e}, due e → Gone c d e ∨ due' e := by
    intro e he
    rcases hdue e he with he | hun | ⟨a, r, ha, hz, _⟩
    · exact .inr he
    · exact .inl hun.gone
    · exact .inl (.inr (hc.stored_eq_none (hd.born ha.1 hz).2.1))
  exact { h with
    lost := fun hx hy hver he => (h.lost hx hy hver he).imp_right (Or.elim · .inl hgone)
    attached := fun {e x s} hx hz hnot => by
      by_cases he : due e
      · rcases hdue e he with he | hun | ⟨a, r, ha, _, hat⟩
        · exact absurd he hnot
        · exact absurd hx (hun.not_edgeIn hd)
        · obtain ⟨rfl, rfl⟩ := ha.unique hx
          exact hat
      · exact h.attached hx hz he
    paired := fun hv hy ht => (h.paired hv hy ht).elim .inl hgone }

/-- More nodes may be taken for dead, and those without a copy no longer need to
be. -/
theorem redead {dead' : NodeId → Prop} {d : Draft} (h : Wired c due dead d)
    (hdead : ∀ n, dead n → dead' n ∨ d.copy? (.node n) = none) : Wired c due dead' d := by
  have hkeep : ∀ {n a}, d.copy? (.node n) = some a → dead n → dead' n := by
    intro n a ha hn
    rcases hdead n hn with hn | hno
    · exact hn
    · cases hno.symm.trans ha
  exact { h with
    listed := fun ha he =>
      (h.listed ha he).imp_right (Or.imp_right fun ⟨hn, hrest⟩ => ⟨hkeep ha.1 hn, hrest⟩)
    current := fun ha he hlive => h.current ha he fun hn => hlive (hkeep ha.1 hn)
    cut := fun hv hb p => by
      rcases h.cut hv hb p with hw | ⟨z, hz, hfree⟩ | hrest
      · exact .inl hw
      · exact .inr (.inl ⟨z, hz, hfree.imp_right (hkeep hz)⟩)
      · exact .inr (.inr hrest) }

end Wired

end Wayfarer
