import Wayfarer.Proofs.View.Graph

/-!
# Views of a few objects

A view that is given by a list of objects (`View.ofList`), and a request
over a vault in which such objects are stored: one that begins
(`Desk.opening`), and one that has staged some objects already
(`Desk.underway`). Whether such a view is consistent, whether its twins are
mirrored and belong to the same tenant, and where its roots lead at most
are questions about the list, which can be computed.
-/

namespace Wayfarer

namespace View

variable {l : List Anchor} {id : ObjectId} {a : Anchor}

/-- The view in which certain objects are seen and no others. -/
def ofList (l : List Anchor) : View := fun id => l.find? fun a => a.id = id

/-- The edges that a node lists, those that leave it first. -/
def lists (v : View) (n : NodeId) : Option (List EdgeId × List EdgeId) :=
  ((v (.node n)).bind Anchor.node?).map fun r => (r.outgoing, r.incoming)

theorem mem_of_ofList (h : ofList l id = some a) : a ∈ l ∧ a.id = id :=
  ⟨List.mem_of_find?_eq_some h,
    of_decide_eq_true (List.find?_some (p := fun a : Anchor => decide (a.id = id)) h)⟩

theorem nodeIn_ofList {n : NodeId} {r : NodeRecord} (h : NodeIn (ofList l) n a r) :
    a ∈ l ∧ n ∈ a.id.node? ∧ r ∈ a.node? := by
  obtain ⟨hin, hid⟩ := mem_of_ofList h.1
  exact ⟨hin, by rw [hid]; rfl, h.2⟩

theorem edgeIn_ofList {e : EdgeId} {r : EdgeRecord} (h : EdgeIn (ofList l) e a r) :
    a ∈ l ∧ e ∈ a.id.edge? ∧ r ∈ a.edge? := by
  obtain ⟨hin, hid⟩ := mem_of_ofList h.1
  exact ⟨hin, by rw [hid]; rfl, h.2⟩

/-- What makes a list of objects a consistent view: they are of the kinds that
their identities say, and a node lists all edges that end at it and no
others. -/
def Tallies (l : List Anchor) : Prop :=
  (∀ a ∈ l, a.id.node?.isSome = a.node?.isSome ∧ a.id.edge?.isSome = a.edge?.isSome) ∧
  (∀ a ∈ l, ∀ e ∈ a.id.edge?, ∀ r ∈ a.edge?, ∀ p ∈ [Port.out, .into],
    ∃ b ∈ ofList l (.node (r.endAt p)), ∃ s ∈ b.node?, e ∈ s.edgesAt p) ∧
  ∀ a ∈ l, ∀ n ∈ a.id.node?, ∀ r ∈ a.node?, ∀ p ∈ [Port.out, .into], ∀ e ∈ r.edgesAt p,
    ∃ b ∈ ofList l (.edge e), ∃ s ∈ b.edge?, s.endAt p = n

instance (l : List Anchor) : Decidable (Tallies l) := inferInstanceAs (Decidable (_ ∧ _ ∧ _))

/-- What makes the twins in a list of objects mirrored: a twin is there, names
the edge and lies the other way round. -/
def Reflects (l : List Anchor) : Prop :=
  ∀ a ∈ l, ∀ e ∈ a.id.edge?, ∀ r ∈ a.edge?, ∀ t ∈ r.twin, ∃ b ∈ ofList l (.edge t),
    ∃ s ∈ b.edge?, s.twin = some e ∧ ∀ p ∈ [Port.out, .into], s.endAt p = r.endAt p.flip

instance (l : List Anchor) : Decidable (Reflects l) :=
  inferInstanceAs (Decidable (∀ a ∈ l, _))

/-- What makes the twins in a list of objects belong to the same tenant: a
twin is there and has the same owner and the same access list. -/
def Shares (l : List Anchor) : Prop :=
  ∀ a ∈ l, ∀ r ∈ a.edge?, ∀ t ∈ r.twin, ∃ b ∈ ofList l (.edge t),
    b.owner = a.owner ∧ b.access = a.access

instance (l : List Anchor) : Decidable (Shares l) :=
  inferInstanceAs (Decidable (∀ a ∈ l, _))

/-- A list of nodes has every root among certain objects, and every node that
an edge among them leads to from one of its nodes. -/
def Encloses (l : List Anchor) (nodes : List NodeId) : Prop :=
  (∀ a ∈ l, ∀ n ∈ a.id.node?, a.type = rootType → n ∈ nodes) ∧
  ∀ a ∈ l, ∀ r ∈ a.edge?, r.source ∈ nodes → r.target ∈ nodes

theorem consistent_ofList (h : Tallies l) : (ofList l).Consistent := by
  obtain ⟨hkinds, hends, hlisted⟩ := h
  have hports : ∀ p, p ∈ [Port.out, .into] := fun p => by cases p <;> simp
  refine ⟨fun {n a} ha => ?_, fun {e a} ha => ?_, fun {e a r} ha p => ?_,
    fun {n a r p e} ha he => ?_⟩
  · obtain ⟨hin, hid⟩ := mem_of_ofList ha
    have hsome := (hkinds a hin).1
    rw [hid] at hsome
    exact Option.isSome_iff_exists.1 hsome.symm
  · obtain ⟨hin, hid⟩ := mem_of_ofList ha
    have hsome := (hkinds a hin).2
    rw [hid] at hsome
    exact Option.isSome_iff_exists.1 hsome.symm
  · obtain ⟨hin, he, hr⟩ := edgeIn_ofList ha
    obtain ⟨b, hb, s, hs, hlists⟩ := hends a hin e he r hr p (hports p)
    exact ⟨b, s, ⟨hb, hs⟩, hlists⟩
  · obtain ⟨hin, hn, hr⟩ := nodeIn_ofList ha
    obtain ⟨b, hb, s, hs, hend⟩ := hlisted a hin n hn r hr p (hports p) e he
    exact ⟨b, s, ⟨hb, hs⟩, hend⟩

theorem mirrored_ofList (h : Reflects l) : (ofList l).Mirrored := by
  intro e a r t ha ht
  obtain ⟨hin, he, hr⟩ := edgeIn_ofList ha
  obtain ⟨b, hb, s, hs, htwin, hends⟩ := h a hin e he r hr t ht
  exact ⟨b, s, ⟨hb, hs⟩, htwin, fun p => hends p (by cases p <;> simp)⟩

theorem twinned_ofList (h : Reflects l) (hs : Shares l) : (ofList l).Twinned := by
  intro e a r t ha ht
  obtain ⟨b, s, hb, hmirrors⟩ := mirrored_ofList h ha ht
  obtain ⟨hin, _, hr⟩ := edgeIn_ofList ha
  obtain ⟨c, hc, howner, haccess⟩ := hs a hin r hr t ht
  obtain rfl : c = b := Option.some.inj (hc.symm.trans hb.1)
  exact ⟨c, s, hb, hmirrors, howner, haccess⟩

/-- Roots lead to no nodes but those of a list that encloses them. -/
theorem anchored_ofList {nodes : List NodeId} {n : NodeId} (h : Encloses l nodes)
    (hn : (ofList l).Anchored n) : n ∈ nodes := by
  obtain ⟨m, a, ha, hroot, hpath⟩ := hn
  obtain ⟨hin, hid⟩ := mem_of_ofList ha
  induction hpath with
  | refl => exact h.1 a hin m (by rw [hid]; rfl) hroot
  | tail _ hlead ih =>
    obtain ⟨e, b, r, hb, hsource, htarget⟩ := hlead
    obtain ⟨hin, _, hr⟩ := edgeIn_ofList hb
    exact htarget ▸ h.2 b hin r hr (hsource ▸ ih)

theorem put_ofList (a : Anchor) : (ofList l).put a.id a = ofList (a :: l) := by
  funext id
  unfold put ofList
  by_cases h : a.id = id
  · rw [if_pos h.symm, List.find?_cons_of_pos (by simp [h])]
  · rw [if_neg (Ne.symm h), List.find?_cons_of_neg (by simp [h])]

end View

/-! ## A request over a vault with a few objects -/

/-- Anchors as a vault keeps them. -/
def Vault.shelved : List Anchor → Table ObjectId Anchor
  | [] => Table.empty
  | a :: rest => (shelved rest).insert a.id a.clean

theorem Vault.get?_shelved (l : List Anchor) (id : ObjectId) :
    (shelved l).get? id = View.ofList (l.map Anchor.clean) id := by
  induction l with
  | nil => rfl
  | cons a rest ih =>
    rw [shelved, Table.get?_insert, ih]
    unfold View.ofList
    by_cases h : a.id = id
    · rw [if_pos h.symm, List.map_cons, List.find?_cons_of_pos (by simp [h])]
    · rw [if_neg (Ne.symm h), List.map_cons, List.find?_cons_of_neg (by simp [h])]

/-- The vault that keeps certain anchors can be read. -/
def Tier.shelved (l : List Anchor) : Tier Vault := .ofVault ⟨Vault.shelved l, 0⟩ fun {id a} h => by
  rw [Vault.get?_shelved] at h
  obtain ⟨hin, hid⟩ := View.mem_of_ofList h
  obtain ⟨b, -, rfl⟩ := List.mem_map.1 hin
  exact ⟨hid, rfl⟩

/-- A desk at which nothing was done yet, over a vault with certain anchors. -/
def Desk.opening (mint : Mint) (l : List Anchor) : Desk Vault :=
  ⟨Draft.empty, ⟨⟨Vault.shelved l, 0⟩, Cache.new 0 0, mint, 0, Table.empty, Table.empty⟩⟩

namespace Desk

variable (mint : Mint) (l : List Anchor)

theorem opening_over : (opening mint l).Over (.shelved l) := ⟨rfl, .of_empty rfl⟩

theorem opening_keyed : (opening mint l).draft.Keyed := .of_empty rfl

theorem view_opening : (opening mint l).view (.shelved l) = View.ofList (l.map Anchor.clean) := by
  funext id
  have hstored : (opening mint l).draft.view (Tier.shelved l).content id =
      (Vault.shelved l).get? id :=
    Draft.view_of_content rfl rfl
  rw [view, hstored, Vault.get?_shelved]
  cases h : View.ofList (l.map Anchor.clean) id with
  | none => rfl
  | some a =>
    obtain ⟨b, -, rfl⟩ := List.mem_map.1 (View.mem_of_ofList h).1
    rfl

variable {mint l}

theorem opening_seen {id : ObjectId} {a : Anchor}
    (h : View.ofList (l.map Anchor.clean) id = some a) :
    (opening mint l).view (.shelved l) id = some a := by
  rwa [view_opening]

theorem opening_consistent (h : View.Tallies (l.map Anchor.clean)) :
    ((opening mint l).view (.shelved l)).Consistent := by
  rw [view_opening]
  exact View.consistent_ofList h

/-- Nothing of version zero is stored. -/
theorem opening_sane (h : ∀ a ∈ l, a.version ≠ 0) : (opening mint l).Sane (.shelved l) := by
  refine ⟨opening_over mint l, opening_keyed mint l, fun {id a} ha hzero => ?_⟩
  rw [view_opening] at ha
  obtain ⟨b, hb, rfl⟩ := List.mem_map.1 (View.mem_of_ofList ha).1
  exact absurd hzero (h b hb)

theorem opening_mirrored (h : View.Reflects (l.map Anchor.clean)) :
    ((opening mint l).view (.shelved l)).Mirrored := by
  rw [view_opening]
  exact View.mirrored_ofList h

theorem opening_twinned (h : View.Reflects (l.map Anchor.clean))
    (hs : View.Shares (l.map Anchor.clean)) : ((opening mint l).view (.shelved l)).Twinned := by
  rw [view_opening]
  exact View.twinned_ofList h hs

/-- All that is known at first is what is stored. -/
theorem knows_opening {id : ObjectId} (h : (opening mint l).Knows (.shelved l) id) :
    ∃ a ∈ l, a.id = id := by
  rcases h with (⟨a, ha⟩ | ⟨w, hw⟩) | ⟨a, ha⟩
  · cases ha
  · cases hw
  · obtain ⟨hin, hid⟩ := View.mem_of_ofList ((Vault.get?_shelved l id).symm.trans ha)
    obtain ⟨b, hb, rfl⟩ := List.mem_map.1 hin
    exact ⟨b, hb, hid⟩

/-- A desk at which some anchors were staged, over a vault with others. -/
def underway (mint : Mint) (l : List Anchor) : List Anchor → Desk Vault
  | [] => opening mint l
  | a :: rest => (underway mint l rest).staged a

variable (mint l)

theorem underway_over (drafts : List Anchor) : (underway mint l drafts).Over (.shelved l) := by
  induction drafts with
  | nil => exact opening_over mint l
  | cons a rest ih => exact ⟨ih.holds, ih.coherent⟩

theorem underway_keyed (drafts : List Anchor) : (underway mint l drafts).draft.Keyed := by
  induction drafts with
  | nil => exact opening_keyed mint l
  | cons a rest ih => exact ih.stage a

theorem view_underway (drafts : List Anchor) :
    (underway mint l drafts).view (.shelved l) =
      View.ofList ((drafts ++ l).map Anchor.clean) := by
  induction drafts with
  | nil => exact view_opening mint l
  | cons a rest ih =>
    rw [underway, view_staged, ih]
    exact View.put_ofList a.clean

end Desk

/-! ## Places and paths -/

/-- An actor of a tenant's who may build roads. -/
def Actor.builder (tenant : RootId) : Actor :=
  ⟨{ (default : Rulebook) with
      types := ⟨Table.empty.insert (TypeId.ofName "road")
        ⟨TypeId.ofName "road", "road", .edge, none, Fields.empty⟩, Table.empty, Table.empty⟩ },
    tenant⟩

namespace Anchor

/-- The stored root of a tenant, with the edges that leave it. -/
def home (owner : RootId) (outgoing : List EdgeId) : Anchor :=
  { ofNode owner.node owner ⟨rootType, Fields.empty, outgoing, []⟩ with
    version := 1, dirty := false }

/-- A stored node of somebody's, with its edges. -/
def place (owner : RootId) (n : NodeId) (outgoing incoming : List EdgeId) : Anchor :=
  { ofNode n owner ⟨⟨⟨4⟩⟩, Fields.empty, outgoing, incoming⟩ with version := 1, dirty := false }

theorem place_plain (owner : RootId) (n : NodeId) (outgoing incoming : List EdgeId) :
    (place owner n outgoing incoming).type ≠ rootType := by
  change (⟨⟨4⟩⟩ : TypeId) ≠ rootType
  decide +kernel

/-- A stored edge of somebody's, directed unless it has a twin. -/
def path (owner : RootId) (e : EdgeId) (source target : NodeId) (twin : Option EdgeId) : Anchor :=
  { ofEdge e owner ⟨⟨⟨5⟩⟩, Fields.empty, source, target, twin.isNone, twin⟩ with
    version := 1, dirty := false }

end Anchor

namespace Lane

/-- Two places with an undirected link between them. -/
def anchors : List Anchor :=
  [.place default ⟨⟨1⟩⟩ [⟨⟨3⟩⟩] [⟨⟨4⟩⟩], .place default ⟨⟨2⟩⟩ [⟨⟨4⟩⟩] [⟨⟨3⟩⟩],
    .path default ⟨⟨3⟩⟩ ⟨⟨1⟩⟩ ⟨⟨2⟩⟩ (some ⟨⟨4⟩⟩),
    .path default ⟨⟨4⟩⟩ ⟨⟨2⟩⟩ ⟨⟨1⟩⟩ (some ⟨⟨3⟩⟩)]

def desk : Desk Vault := .opening ⟨⟨0⟩, 0⟩ anchors

def actor : Actor := ⟨default, default⟩

theorem view_consistent : (desk.view (.shelved anchors)).Consistent :=
  Desk.opening_consistent (by decide)

theorem view_mirrored : (desk.view (.shelved anchors)).Mirrored := Desk.opening_mirrored (by decide)

end Lane

end Wayfarer
